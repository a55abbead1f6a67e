import Mathlib.Data.Set.Insert
import TraitDispatch.Proofs.Chains
import TraitDispatch.Proofs.Outcome

/- What code cannot make up. A value cannot be guessed, and a stack comes from an empty one by
   entries and the like. A program has such tokens only if it was given them, finds them in
   something that it was given, or is answered with them. For any set of tokens this means: as long
   as everything that the program starts from and is answered lies in the set, so do its requests
   and its result. Built-in programs keep to this, and embedding programs are asked to. -/
namespace TraitDispatch
variable {H : Host} {α β : Type}

inductive Token where
  | value (v : Value)
  | stack (s : CallStack)

def Token.values (vs : List Value) : Set Token := {t | ∃ v ∈ vs, t = .value v}

theorem Token.values_subset_iff {vs : List Value} {K : Set Token} :
    Token.values vs ⊆ K ↔ ∀ v ∈ vs, .value v ∈ K := by
  constructor
  · exact fun held v member => held ⟨v, member, rfl⟩
  · rintro known t ⟨v, member, rfl⟩
    exact known v member

/-- Anybody can come by an empty stack, and by what a move leads to from one that they have. -/
structure Token.Workable (K : Set Token) : Prop where
  start : ∀ limit, .stack (.withLimit limit) ∈ K
  moved : ∀ {s t m}, .stack s ∈ K → s.move m = .ok t → .stack t ∈ K

/-- Which tokens are held by what the embedding program brings. -/
structure Holdings (H : Host) where
  code : H.Code → Set Token
  own : (sort : Nat) → H.Own sort → Set Token
  slot : H.Slot → Set Token
  memory : H.Memory → Set Token

namespace Holdings
variable (G : Holdings H)

def function : Function H.Code → Set Token
  | .display | .definer => ∅
  | .definerOf parameter => {.value parameter}
  | .application m => {.value m.parameter, .value m.body}
  | .own code => G.code code

def evaluator : Evaluator H.Code → Set Token
  | .block b => Token.values b.statements.flatten
  | .list l => Token.values l.items
  | .name _ => ∅
  | .quoted inner => {.value inner}
  | .own code => G.code code

def expander : Expander H.Code → Set Token
  | .block b _ => Token.values b.statements.flatten
  | .list l _ => Token.values l.items
  | .name _ _ => ∅
  | .quoted inner _ => {.value inner}
  | .own code => G.code code

def assigner : Assigner H.Code → Set Token
  | .name _ => ∅
  | .own code => G.code code

def content : (k : Kind) → k.Carrier H → Set Token
  | .text, _ | .name, _ | .number, _ => ∅
  | .list, l => Token.values l.items
  | .block, b => Token.values b.statements.flatten
  | .quoted, q => {.value q.inner}
  | .definition, m => {.value m.parameter, .value m.body}
  | .function, f => G.function f
  | .evaluator, f => G.evaluator f
  | .expander, f => G.expander f
  | .assigner, f => G.assigner f
  | .own sort, x => G.own sort x

def payload (p : Payload H) : Set Token := G.content p.kind p.content

def body {k : Kind} : Body H k → Set Token
  | .constant x => G.content k x
  | .lazy code => G.code code

def node (n : Node H) : Set Token := {t | ∃ i ∈ n.instances, t ∈ G.body i.body}

def rule : Rule H → Set Token
  | .standard _ => ∅
  | .own _ _ code => G.code code

def environment (E : Environment H) : Set Token :=
  {t | (∃ rule ∈ E.rules, t ∈ G.rule rule) ∨ (∃ name v, E.lookup name = some v ∧ t = .value v) ∨
    ∃ slot, E.slot = some slot ∧ t ∈ G.slot slot}

def access : Access H → Set Token
  | .create n => G.node n
  | .inspect v | .isRemembered v _ | .define _ _ v => {.value v}
  | .register _ rule => G.rule rule
  | .setSlot _ slot => G.slot slot
  | .setMemory contents => G.memory contents
  | .declare _ _ | .addEnvironment | .exchange _ _ | .environment _ | .setOutput _ _ | .openBuffer
  | .captured _ | .print _ _ | .memory => ∅

def request : Request H → Set Token
  | .resolve v _ ctx => {.value v, .stack ctx.stack}
  | .call f argument ctx => insert (.value argument) (insert (.stack ctx.stack) (G.function f))
  | .evaluate f ctx => insert (.stack ctx.stack) (G.evaluator f)
  | .expand f parameter replacement ctx =>
    insert (.value parameter)
      (insert (.value replacement) (insert (.stack ctx.stack) (G.expander f)))
  | .assign f v ctx => insert (.value v) (insert (.stack ctx.stack) (G.assigner f))
  | .access a => G.access a

def accessed : (a : Access H) → a.Answer → Set Token
  | .create _, v => {.value v}
  | .inspect _, n => G.node n
  | .environment _, E => G.environment E
  | .memory, contents => G.memory contents
  | _, _ => ∅

def result : Except Failure Value → Set Token
  | .ok v => {.value v}
  | .error _ => ∅

def answer : (r : Request H) → r.Answer → Set Token
  | .resolve _ _ _, .ok (some p) => G.payload p
  | .resolve _ _ _, _ => ∅
  | .call _ _ _, r | .evaluate _ _, r | .expand _ _ _ _, r => result r
  | .assign _ _ _, _ => ∅
  | .access a, x => G.accessed a x

end Holdings

/-- Requests hold only tokens of the set, and the result is as described, as long as the answers
    hold only tokens of the set. -/
def Act.Confined (G : Holdings H) (K : Set Token) (good : α → Prop) : Act H α → Prop
  | .done a => good a
  | .ask request next =>
    G.request request ⊆ K ∧
      ∀ answer, G.answer request answer ⊆ K → (next answer).Confined G K good

def Program.Confined (G : Holdings H) (K : Set Token) (good : α → Prop) (m : Program H α) : Prop :=
  Act.Confined G K (fun r => match r with | .ok a => good a | .error _ => True) m.run

def Holdings.Found (G : Holdings H) (K : Set Token) (answer : Option (Payload H)) : Prop :=
  ∀ p, answer = some p → G.payload p ⊆ K

/-- Codes hand on only tokens of the set, if they start from such. They fail as they like. -/
structure Behaviour.Confined (B : Behaviour H) (G : Holdings H) (K : Set Token) : Prop where
  realize : ∀ k code v ctx, G.code code ⊆ K → .value v ∈ K → .stack ctx.stack ∈ K →
    (B.realize k code v ctx).Confined G K fun x => G.content k x ⊆ K
  infer : ∀ k code v ctx, G.code code ⊆ K → .value v ∈ K → .stack ctx.stack ∈ K →
    ((B.infer k code).apply v ctx).Confined G K (G.Found K)
  call : ∀ code v ctx, G.code code ⊆ K → .value v ∈ K → .stack ctx.stack ∈ K →
    (B.call code v ctx).Confined G K fun u => .value u ∈ K
  evaluate : ∀ code ctx, G.code code ⊆ K → .stack ctx.stack ∈ K →
    (B.evaluate code ctx).Confined G K fun u => .value u ∈ K
  expand : ∀ code parameter replacement ctx, G.code code ⊆ K → .value parameter ∈ K →
    .value replacement ∈ K → .stack ctx.stack ∈ K →
      (B.expand code parameter replacement ctx).Confined G K fun u => .value u ∈ K
  assign : ∀ code v ctx, G.code code ⊆ K → .value v ∈ K → .stack ctx.stack ∈ K →
    (B.assign code v ctx).Confined G K fun _ => True

variable {G : Holdings H} {K : Set Token}

namespace Act
variable {good : α → Prop} {fine : β → Prop}

theorem Confined.done {a : α} (holds : good a) : (pure a : Act H α).Confined G K good := holds

theorem Confined.request {r : Request H} {good : r.Answer → Prop} (given : G.request r ⊆ K)
    (answered : ∀ a, G.answer r a ⊆ K → good a) : (request r).Confined G K good :=
  ⟨given, answered⟩

theorem Confined.bind {m : Act H α} {f : α → Act H β} (first : m.Confined G K good)
    (rest : ∀ a, good a → (f a).Confined G K fine) : (m >>= f).Confined G K fine := by
  change (m.bind f).Confined G K fine
  induction m with
  | done a => exact rest a first
  | ask request next ih => exact ⟨first.1, fun answer held => ih answer (first.2 answer held)⟩

theorem Confined.weaken {m : Act H α} {wider : α → Prop} (confined : m.Confined G K good)
    (wide : ∀ a, good a → wider a) : m.Confined G K wider := by
  induction m with
  | done a => exact wide a confined
  | ask request next ih =>
    exact ⟨confined.1, fun answer held => ih answer (confined.2 answer held)⟩

theorem confined_mapM {f : β → Act H α} {bs : List β} (each : ∀ b ∈ bs, (f b).Confined G K good) :
    (bs.mapM f).Confined G K fun as => ∀ a ∈ as, good a := by
  induction bs with
  | nil => exact List.forall_mem_nil _
  | cons b rest ih =>
    rw [List.mapM_cons]
    refine (each b (List.mem_cons_self ..)).bind fun a here => ?_
    refine (ih fun b' later => each b' (List.mem_cons_of_mem b later)).bind fun as there => ?_
    exact List.forall_mem_cons.mpr ⟨here, there⟩

end Act

namespace Program
variable {good : α → Prop} {fine : β → Prop}

theorem Confined.done {a : α} (holds : good a) : (pure a : Program H α).Confined G K good := holds

theorem Confined.failed (f : Failure) : (throw f : Program H α).Confined G K good := trivial

theorem Confined.fail (cause : Cause) (s : CallStack) :
    (Program.fail cause s : Program H α).Confined G K good := trivial

theorem Confined.bind {m : Program H α} {f : α → Program H β} (first : m.Confined G K good)
    (rest : ∀ a, good a → (f a).Confined G K fine) : (m >>= f).Confined G K fine := by
  unfold Confined at *
  rw [ExceptT.run_bind]
  refine Act.Confined.bind first fun r holds => ?_
  cases r with
  | ok a => exact rest a holds
  | error failure => exact trivial

theorem Confined.lift {m : Act H α} (confined : m.Confined G K good) :
    m.lift.Confined G K good := by
  unfold Confined Act.lift
  rw [ExceptT.run_lift, map_eq_pure_bind]
  exact Act.Confined.bind confined fun a holds => holds

theorem Confined.access {a : Access H} {p : a.Answer → Prop} (given : G.access a ⊆ K)
    (answered : ∀ x, G.accessed a x ⊆ K → p x) : (Program.access a).Confined G K p :=
  lift (Act.Confined.request given answered)

theorem confined_bare (a : Access H) (bare : G.access a = ∅) :
    (Program.access a).Confined G K fun _ => True :=
  .access (bare.subset.trans (Set.empty_subset _)) fun _ _ => trivial

theorem Confined.nothing {p : α → Prop} :
    (pure none : Program H (Option α)).Confined G K fun a => ∀ x, a = some x → p x :=
  .done fun _ same => nomatch same

theorem Confined.found {p : α → Prop} {x : α} (holds : p x) :
    (pure (some x) : Program H (Option α)).Confined G K fun a => ∀ x, a = some x → p x :=
  .done fun _ same => Option.some.inj same ▸ holds

theorem Confined.value {r : Act H (Except Failure Value)}
    (confined : r.Confined G K fun x => Holdings.result x ⊆ K) :
    Program.Confined G K (fun u => .value u ∈ K) (ExceptT.mk r) :=
  Act.Confined.weaken confined fun x held => by
    cases x with
    | ok v => exact Set.singleton_subset_iff.mp held
    | error failure => exact trivial

theorem Confined.result {m : Program H Value} (confined : m.Confined G K fun u => .value u ∈ K) :
    m.run.Confined G K fun x => Holdings.result x ⊆ K :=
  Act.Confined.weaken confined fun x held => by
    cases x with
    | ok v => exact Set.singleton_subset_iff.mpr held
    | error failure => exact Set.empty_subset _

theorem confined_mapM {f : β → Program H α} {bs : List β}
    (each : ∀ b ∈ bs, (f b).Confined G K good) :
    (bs.mapM f).Confined G K fun as => ∀ a ∈ as, good a := by
  induction bs with
  | nil => exact .done (List.forall_mem_nil _)
  | cons b rest ih =>
    rw [List.mapM_cons]
    refine (each b (List.mem_cons_self ..)).bind fun a here => ?_
    refine (ih fun b' later => each b' (List.mem_cons_of_mem b later)).bind fun as there => ?_
    exact .done (List.forall_mem_cons.mpr ⟨here, there⟩)

end Program

/-- Built-in programs work with the stack that they are given. -/
structure Equipped (K : Set Token) (s : CallStack) : Prop where
  workable : Token.Workable K
  stack : .stack s ∈ K

namespace Equipped
variable {s : CallStack} (equipped : Equipped K s)
include equipped

theorem quiet : Equipped K s.withoutRecording where
  workable := equipped.workable
  stack := equipped.workable.moved (m := .quiet) equipped.stack rfl

theorem enter (free : s.atLimit = false) (label : String) (l : Option Location) :
    Equipped K (s.enter label l) where
  workable := equipped.workable
  stack := by
    have entered : s.move (.step (.push label l)) = .ok (s.enter label l) :=
      CallStack.push_eq_ok_iff.mpr ⟨free, rfl⟩
    exact equipped.workable.moved equipped.stack entered

theorem derive {v : Value} {key : KeyId} {t : CallStack} (admitted : s.derive v key = .ok t) :
    Equipped K t where
  workable := equipped.workable
  stack := equipped.workable.moved (m := .step (.derive v key)) equipped.stack admitted

end Equipped

theorem location_confined {v : Value} (known : .value v ∈ K) :
    (v.location : Program H _).Confined G K fun _ => True :=
  (Program.Confined.access (p := fun _ => True) (Set.singleton_subset_iff.mpr known)
    fun _ _ => trivial).bind fun _ _ => .done trivial

section Asking
variable {ctx : Context} (equipped : Equipped K ctx.stack) {v : Value} {k : Kind}
include equipped

theorem answer?_confined (known : .value v ∈ K) (key : Key k) :
    (v.answer? key ctx : Program H _).Confined G K fun a => ∀ x, a = some x →
    G.content k x ⊆ K := by
  have resolved : (Program.resolve v key.id ctx : Program H _).Confined G K (G.Found K) := by
    refine Act.Confined.request (Set.pair_subset known equipped.stack) fun answer held => ?_
    match answer with
    | .error failure => exact trivial
    | .ok none => exact fun p none => nomatch none
    | .ok (some p) =>
      rintro q ⟨⟩
      exact held
  refine resolved.bind fun a found => ?_
  cases a with
  | none => exact .nothing
  | some p =>
    obtain ⟨j, content⟩ := p
    dsimp only
    cases typed : Payload.as? ⟨j, content⟩ k with
    | none => exact .failed _
    | some x =>
      cases Payload.as?_eq_some_iff.mp typed
      exact .found (found _ rfl)

theorem answer_confined (known : .value v ∈ K) (key : Key k) :
    (v.answer key ctx : Program H _).Confined G K fun x => G.content k x ⊆ K := by
  refine (answer?_confined equipped known key).bind fun a held => ?_
  cases a with
  | none => exact .fail ..
  | some x => exact .done (held x rfl)

theorem answers_confined (known : .value v ∈ K) (key : Key k) :
    (v.answers key ctx : Program H _).Confined G K fun _ => True :=
  (answer?_confined equipped known key).bind fun _ _ => .done trivial

theorem format_confined (known : .value v ∈ K) :
    (v.format ctx : Act H _).Confined G K fun _ => True := by
  refine Act.Confined.bind (answer?_confined equipped.quiet known Key.text) fun r _ => ?_
  match r with
  | .ok (some text) => exact trivial
  | .ok none | .error failure => exact trivial

theorem enter_confined {label : Act H String} (shown : label.Confined G K fun _ => True)
    (l : Option Location) :
    (ctx.enter label l : Program H _).Confined G K fun inner => Equipped K inner.stack := by
  unfold Context.enter
  cases full : ctx.stack.atLimit with
  | true => exact .failed _
  | false =>
    rw [if_neg Bool.false_ne_true]
    split
    · exact (Program.Confined.lift shown).bind fun text _ => .done (equipped.enter full text l)
    · exact .done (equipped.enter full "" l)

end Asking

namespace Value
variable {ctx : Context} (equipped : Equipped K ctx.stack) {v : Value} (known : .value v ∈ K)
include equipped known

theorem entry_confined (label : String → String) :
    (do ctx.enter (return label (← v.format ctx)) (← v.location) : Program H Context).Confined G K
      fun inner => Equipped K inner.stack :=
  (location_confined known).bind fun l _ =>
    enter_confined equipped ((format_confined equipped known).bind fun _ _ => .done trivial) l

theorem evaluate_confined : (v.evaluate ctx : Program H _).Confined G K fun u => .value u ∈ K := by
  refine (entry_confined equipped known _).bind fun inner within => ?_
  refine (answer_confined within known Key.evaluate).bind fun f held => ?_
  exact .value (r := .request (.evaluate f inner))
    ⟨Set.insert_subset within.stack held, fun _ given => given⟩

theorem expand_confined {p r : Value} (parameter : .value p ∈ K) (replacement : .value r ∈ K) :
    (v.expand p r ctx : Program H _).Confined G K fun u => .value u ∈ K := by
  refine (entry_confined equipped known _).bind fun inner within => ?_
  refine (answer_confined within known Key.expand).bind fun f held => ?_
  have given := Set.insert_subset parameter (Set.insert_subset replacement
    (Set.insert_subset within.stack held))
  exact .value (r := .request (.expand f p r inner)) ⟨given, fun _ given => given⟩

theorem call_confined {a : Value} (argument : .value a ∈ K) :
    (v.call a ctx : Program H _).Confined G K fun u => .value u ∈ K := by
  refine (entry_confined equipped known _).bind fun inner within => ?_
  refine (answer?_confined within known Key.function).bind fun f held => ?_
  cases f with
  | some f =>
    exact .value (r := .request (.call f a inner))
      ⟨Set.insert_subset argument (Set.insert_subset within.stack (held f rfl)),
        fun _ given => given⟩
  | none => exact (Program.Confined.lift (format_confined within known)).bind fun _ _ => .fail ..

theorem evaluateOrSelf_confined :
    (v.evaluateOrSelf ctx : Program H _).Confined G K fun u => .value u ∈ K := by
  refine (answers_confined equipped known Key.evaluate).bind fun able _ => ?_
  cases able with
  | true => exact evaluate_confined equipped known
  | false => exact .done known

theorem expandOrSelf_confined {p r : Value} (parameter : .value p ∈ K)
    (replacement : .value r ∈ K) :
    (v.expandOrSelf p r ctx : Program H _).Confined G K fun u => .value u ∈ K := by
  refine (answers_confined equipped known Key.expand).bind fun able _ => ?_
  cases able with
  | true => exact expand_confined equipped known parameter replacement
  | false => exact .done known

end Value

section Making

theorem create_confined {n : Node H} (held : G.node n ⊆ K) :
    (Program.create n).Confined G K fun u => .value u ∈ K :=
  .access held fun _ given => Set.singleton_subset_iff.mp given

theorem single_held {k : Kind} (key : Key k) {x : k.Carrier H} (held : G.content k x ⊆ K)
    (l : Option Location) : G.node (.single key x l) ⊆ K := by
  rintro t ⟨i, member, inside⟩
  cases List.mem_singleton.mp member
  exact held inside

theorem createEmpty_confined :
    (Program.createEmpty : Program H _).Confined G K fun u => .value u ∈ K :=
  create_confined fun _ ⟨_, member, _⟩ => absurd member List.not_mem_nil

variable {items : List Value} (known : ∀ v ∈ items, .value v ∈ K)
include known

theorem createList_confined :
    (createList items : Program H _).Confined G K fun u => .value u ∈ K := by
  have held : G.content .list ⟨items⟩ ⊆ K := Token.values_subset_iff.mpr known
  cases items with
  | nil => exact create_confined (single_held Key.list held none)
  | cons first rest =>
    exact (location_confined (known first (List.mem_cons_self ..))).bind fun l _ =>
      create_confined (single_held Key.list held l)

theorem bundle_confined : (bundle items : Program H _).Confined G K fun u => .value u ∈ K := by
  unfold bundle
  split
  · exact .done (known _ (List.mem_singleton_self _))
  · exact createList_confined known

end Making

section Evaluating
variable {ctx : Context} (equipped : Equipped K ctx.stack)
include equipped

theorem splitAssignment_confined {passed items : List Value} (before : ∀ v ∈ passed, .value v ∈ K)
    (known : ∀ v ∈ items, .value v ∈ K) :
    (splitAssignment passed items ctx : Program H _).Confined G K fun split =>
      ∀ p, split = some p → (∀ v ∈ p.1, .value v ∈ K) ∧ ∀ v ∈ p.2, .value v ∈ K := by
  induction items generalizing passed with
  | nil => exact .nothing
  | cons item rest ih =>
    obtain ⟨here, there⟩ := List.forall_mem_cons.mp known
    refine (answer?_confined equipped here Key.name).bind fun name _ => ?_
    split
    · exact .found ⟨fun v member => before v (List.mem_reverse.mp member), there⟩
    · exact ih (List.forall_mem_cons.mpr ⟨here, before⟩) there

theorem evaluateAssignment_confined {left right : List Value} (targets : ∀ v ∈ left, .value v ∈ K)
    (sources : ∀ v ∈ right, .value v ∈ K) :
    (evaluateAssignment left right ctx : Program H _).Confined G K fun u => .value u ∈ K := by
  unfold evaluateAssignment
  split
  · exact .fail ..
  refine (bundle_confined targets).bind fun target named => ?_
  refine (bundle_confined sources).bind fun source written => ?_
  refine (Value.evaluateOrSelf_confined equipped written).bind fun value given => ?_
  refine (answer_confined equipped named Key.assign).bind fun f held => ?_
  have assigned : (Program.assign f value ctx).Confined G K fun _ => True :=
    Act.Confined.request (Set.insert_subset given (Set.insert_subset equipped.stack held))
      fun answer _ => by cases answer <;> exact trivial
  exact assigned.bind fun _ _ => createEmpty_confined

theorem callAll_confined {f : Value} {items : List Value} (called : .value f ∈ K)
    (known : ∀ v ∈ items, .value v ∈ K) :
    (callAll f items ctx : Program H _).Confined G K fun u => .value u ∈ K := by
  induction items generalizing f with
  | nil => exact .done called
  | cons item rest ih =>
    obtain ⟨here, there⟩ := List.forall_mem_cons.mp known
    exact (Value.call_confined equipped called here).bind fun result next => ih next there

theorem ListForm.evaluate_confined {l : ListForm} (known : ∀ v ∈ l.items, .value v ∈ K) :
    (l.evaluate ctx : Program H _).Confined G K fun u => .value u ∈ K := by
  refine (splitAssignment_confined equipped (List.forall_mem_nil _) known).bind
    fun split parted => ?_
  cases split with
  | some p => exact evaluateAssignment_confined equipped (parted p rfl).1 (parted p rfl).2
  | none =>
    obtain ⟨items⟩ := l
    cases items with
    | nil => exact createEmpty_confined
    | cons first rest =>
      obtain ⟨here, there⟩ := List.forall_mem_cons.mp known
      exact (Value.evaluateOrSelf_confined equipped here).bind fun f called =>
        callAll_confined equipped called there

theorem evaluateStatements_confined {v : Value} {rows : List (List Value)} (result : .value v ∈ K)
    (known : ∀ row ∈ rows, ∀ v ∈ row, .value v ∈ K) :
    (evaluateStatements v rows ctx : Program H _).Confined G K fun u => .value u ∈ K := by
  induction rows generalizing v with
  | nil => exact .done result
  | cons row rest ih =>
    obtain ⟨here, there⟩ := List.forall_mem_cons.mp known
    refine (createList_confined here).bind fun list listed => ?_
    exact (Value.evaluate_confined equipped listed).bind fun next given => ih given there

theorem Name.evaluate_confined (n : Name) :
    (n.evaluate ctx : Program H _).Confined G K fun u => .value u ∈ K := by
  refine (enter_confined equipped (.done trivial) none).bind fun inner _ => ?_
  refine (Program.Confined.access (p := fun E => G.environment E ⊆ K) (Set.empty_subset _)
    fun _ held => held).bind fun E held => ?_
  cases bound : E.lookup n.name with
  | none => exact .fail ..
  | some v => exact .done (held (.inr (.inl ⟨n.name, v, bound, rfl⟩)))

omit equipped in
theorem Name.assign_confined {v : Value} (n : Name) (known : .value v ∈ K) :
    (n.assign v ctx : Program H _).Confined G K fun _ => True :=
  .access (Set.singleton_subset_iff.mpr known) fun _ _ => trivial

omit equipped in
theorem printLine_confined (line : String) :
    (printLine line ctx : Program H _).Confined G K fun _ => True := by
  refine (Program.confined_bare (.environment ctx.environment) rfl).bind fun E _ => ?_
  split
  · exact Program.confined_bare _ rfl
  · exact (Program.confined_bare (.setOutput ctx.environment .console) rfl).bind fun _ _ =>
      Program.confined_bare _ rfl

theorem display_confined {v : Value} (known : .value v ∈ K) :
    (display v ctx : Program H _).Confined G K fun u => .value u ∈ K := by
  refine (Value.evaluateOrSelf_confined equipped known).bind fun value given => ?_
  refine (Program.Confined.lift (format_confined equipped given)).bind fun line _ => ?_
  exact (printLine_confined line).bind fun _ _ => createEmpty_confined

theorem Macro.apply_confined {m : Macro} {v : Value} (parameter : .value m.parameter ∈ K)
    (body : .value m.body ∈ K) (known : .value v ∈ K) :
    (m.apply v ctx : Program H _).Confined G K fun u => .value u ∈ K := by
  refine (Value.evaluateOrSelf_confined equipped known).bind fun replacement given => ?_
  refine (Value.expand_confined equipped body parameter given).bind fun expanded made => ?_
  exact Value.evaluateOrSelf_confined equipped made

end Evaluating

section Expanding
variable {ctx : Context} (equipped : Equipped K ctx.stack) {p r : Value}
  (parameter : .value p ∈ K) (replacement : .value r ∈ K)
include equipped parameter replacement

theorem ListForm.expand_confined {l : ListForm} (known : ∀ v ∈ l.items, .value v ∈ K) :
    (l.expand p r ctx : Program H _).Confined G K fun l' => ∀ v ∈ l'.items, .value v ∈ K :=
  (Program.confined_mapM fun v member =>
    Value.expandOrSelf_confined equipped (known v member) parameter replacement).bind
    fun _ held => .done held

theorem expandStatement_confined {row : List Value} (known : ∀ v ∈ row, .value v ∈ K) :
    (expandStatement p r ctx row : Program H _).Confined G K fun row' =>
      ∀ v ∈ row', .value v ∈ K := by
  refine (createList_confined known).bind fun list listed => ?_
  refine (Value.expand_confined equipped listed parameter replacement).bind fun other given => ?_
  exact (answer_confined equipped given Key.list).bind fun _ held =>
    .done (Token.values_subset_iff.mp held)

theorem Block.expand_confined {b : Block} (known : ∀ row ∈ b.statements, ∀ v ∈ row, .value v ∈ K) :
    (b.expand p r ctx : Program H _).Confined G K fun b' =>
      ∀ row ∈ b'.statements, ∀ v ∈ row, .value v ∈ K :=
  (Program.confined_mapM fun row member =>
    expandStatement_confined equipped parameter replacement (known row member)).bind
    fun _ held => .done held

theorem Name.expand_confined (n : Name) (l : Option Location) :
    (n.expand l p r ctx : Program H _).Confined G K fun u => .value u ∈ K := by
  refine (answer?_confined equipped parameter Key.name).bind fun name _ => ?_
  split
  · exact .done replacement
  · exact create_confined (single_held Key.name (Set.empty_subset _) l)

end Expanding

section Deriving
variable {ctx : Context} (equipped : Equipped K ctx.stack) {v : Value} {j k : Kind} {key : Key j}

theorem direct_confined (asked : (v.answer? key ctx : Program H _).Confined G K fun a =>
      ∀ x, a = some x → G.content j x ⊆ K)
    {f : j.Carrier H → k.Carrier H} (kept : ∀ x, G.content j x ⊆ K → G.content k (f x) ⊆ K) :
    ((Inference.direct key f).apply v ctx : Program H _).Confined G K (G.Found K) := by
  refine asked.bind fun x held => ?_
  cases x with
  | none => exact .nothing
  | some x => exact .found (kept x (held x rfl))

include equipped

theorem directAt_confined (known : .value v ∈ K) {f : j.Carrier H → Option Location → k.Carrier H}
    (kept : ∀ x l, G.content j x ⊆ K → G.content k (f x l) ⊆ K) :
    ((Inference.directAt key f).apply v ctx : Program H _).Confined G K (G.Found K) := by
  have checked : ((Validation.conformsAt key).check v ctx : Program H _).Confined G K fun a =>
      ∀ x, a = some x → G.content j x.1 ⊆ K := by
    refine (answer?_confined equipped known key).bind fun x held => ?_
    cases x with
    | none => exact .nothing
    | some x => exact (location_confined known).bind fun l _ => .found (held x rfl)
  refine checked.bind fun x held => ?_
  cases x with
  | none => exact .nothing
  | some x => exact .found (kept x.1 x.2 (held x rfl))

theorem composed_confined (known : .value v ∈ K) {m : j.Carrier H → Context → Act H String}
    (shown : ∀ x, G.content j x ⊆ K → (m x ctx).Confined G K fun _ => True) :
    ((⟨_, .conforms key, fun x ctx => do return ⟨← (m x ctx).lift, none⟩⟩ :
      Inference H .text).apply v ctx).Confined G K (G.Found K) := by
  refine (answer?_confined equipped known key).bind fun x held => ?_
  cases x with
  | none => exact .nothing
  | some x =>
    have rendered : (do return ⟨← (m x ctx).lift, none⟩ : Program H Text).Confined G K
        fun _ => True := (Program.Confined.lift (shown x (held x rfl))).bind
          fun _ _ => .done trivial
    exact rendered.bind fun text _ => .found (Set.empty_subset _)

theorem ListForm.render_confined {l : ListForm} (known : ∀ v ∈ l.items, .value v ∈ K) :
    (l.render ctx : Act H _).Confined G K fun _ => True :=
  (Act.confined_mapM fun item member => format_confined equipped (known item member)).bind
    fun _ _ => .done trivial

theorem rule_confined (known : .value v ∈ K) (rule : StandardRule) :
    (rule.inference.apply v ctx : Program H _).Confined G K (G.Found K) := by
  cases rule with
  | blockText | definitionText | functionText | numberText | nameEvaluate | nameAssign =>
    exact direct_confined (answer?_confined equipped known _) fun _ _ => Set.empty_subset _
  | nameText | nameExpand => exact directAt_confined equipped known fun _ _ _ => Set.empty_subset _
  | blockEvaluate | listEvaluate | quotedEvaluate | definitionFunction =>
    exact direct_confined (answer?_confined equipped known _) fun _ held => held
  | blockExpand | listExpand | quotedExpand =>
    exact directAt_confined equipped known fun _ _ held => held
  | listText =>
    exact composed_confined equipped known fun l held =>
      ListForm.render_confined equipped (Token.values_subset_iff.mp held)
  | quotedText =>
    refine composed_confined equipped known fun q held => ?_
    exact (format_confined equipped (Set.singleton_subset_iff.mp held)).bind
      fun _ _ => .done trivial

end Deriving

section Dispatching
variable {B : Behaviour H} (codes : B.Confined G K) {ctx : Context}
  (equipped : Equipped K ctx.stack)
  {v : Value}
include codes equipped

theorem applyFirst_confined {rules : List (Rule H)} (known : .value v ∈ K)
    (held : ∀ rule ∈ rules, G.rule rule ⊆ K) :
    (applyFirst B v ctx rules).Confined G K (G.Found K) := by
  induction rules with
  | nil => exact .nothing
  | cons rule rest ih =>
    obtain ⟨here, there⟩ := List.forall_mem_cons.mp held
    have applied : (rule.apply B v ctx).Confined G K (G.Found K) := by
      cases rule with
      | standard rule => exact rule_confined equipped known rule
      | own k key code => exact codes.infer k code v ctx here known equipped.stack
    refine applied.bind fun answer found => ?_
    cases answer with
    | none => exact ih there
    | some p => exact .done found

theorem Instance.realize_confined {i : Instance H} (known : .value v ∈ K)
    (held : G.body i.body ⊆ K) : (i.realize B v ctx).Confined G K fun p => G.payload p ⊆ K := by
  unfold Instance.realize
  cases body : i.body with
  | constant x =>
    rw [body] at held
    exact .done held
  | lazy code =>
    rw [body] at held
    exact (codes.realize i.kind code v ctx held known equipped.stack).bind
      fun x given => .done given

theorem deriveAnswer_confined {w : World H} (known : .value v ∈ K) (own : G.node (w.node v) ⊆ K)
    (environment : G.environment (w.environment ctx.environment) ⊆ K) (key : KeyId) :
    (deriveAnswer B w v key ctx).Confined G K (G.Found K) := by
  unfold deriveAnswer
  cases found : (w.node v).find? key with
  | none =>
    refine applyFirst_confined codes equipped known fun rule member u inside => ?_
    exact environment (.inl ⟨rule, (List.mem_filter.mp member).1, inside⟩)
  | some i =>
    have held : G.body i.body ⊆ K := fun u inside =>
      own ⟨i, List.mem_of_find?_eq_some found, inside⟩
    exact (Instance.realize_confined codes equipped known held).bind fun p given => .found given

theorem Function.apply_confined (f : Function H.Code) (held : G.function f ⊆ K)
    (known : .value v ∈ K) : (f.apply B v ctx).Confined G K fun u => .value u ∈ K := by
  cases f with
  | display => exact display_confined equipped known
  | definer =>
    exact create_confined (single_held Key.function (Set.singleton_subset_iff.mpr known) none)
  | definerOf parameter =>
    have given := Set.singleton_subset_iff.mp held
    exact (location_confined given).bind fun l _ =>
      create_confined (single_held Key.definition (Set.pair_subset given known) l)
  | application m =>
    obtain ⟨parameter, body⟩ := Set.pair_subset_iff.mp held
    exact Macro.apply_confined equipped parameter body known
  | own code => exact codes.call code v ctx held known equipped.stack

theorem Evaluator.apply_confined (f : Evaluator H.Code) (held : G.evaluator f ⊆ K) :
    (f.apply B ctx).Confined G K fun u => .value u ∈ K := by
  cases f with
  | block b =>
    have known := Token.values_subset_iff.mp held
    exact createEmpty_confined.bind fun result given =>
      evaluateStatements_confined equipped given fun row member v inside =>
        known v (List.mem_flatten.mpr ⟨row, member, inside⟩)
  | list l => exact ListForm.evaluate_confined equipped (Token.values_subset_iff.mp held)
  | name n => exact Name.evaluate_confined equipped n
  | quoted inner => exact .done (Set.singleton_subset_iff.mp held)
  | own code => exact codes.evaluate code ctx held equipped.stack

theorem Expander.apply_confined (f : Expander H.Code) {p r : Value} (held : G.expander f ⊆ K)
    (parameter : .value p ∈ K) (replacement : .value r ∈ K) :
    (f.apply B p r ctx).Confined G K fun u => .value u ∈ K := by
  cases f with
  | block b l =>
    have known := Token.values_subset_iff.mp held
    refine (Block.expand_confined equipped parameter replacement fun row member v inside =>
      known v (List.mem_flatten.mpr ⟨row, member, inside⟩)).bind fun b' given => ?_
    refine create_confined (single_held Key.block
      (Token.values_subset_iff.mpr fun v inside => ?_) l)
    obtain ⟨row, member, inside⟩ := List.mem_flatten.mp inside
    exact given row member v inside
  | list items l =>
    exact (ListForm.expand_confined equipped parameter replacement
      (Token.values_subset_iff.mp held)).bind fun items' given =>
        create_confined (single_held Key.list (Token.values_subset_iff.mpr given) l)
  | name n l => exact Name.expand_confined equipped parameter replacement n l
  | quoted inner l =>
    have inside : (Quoted.expand ⟨inner⟩ p r ctx : Program H _).Confined G K
        fun q => .value q.inner ∈ K :=
      (Value.expandOrSelf_confined equipped (Set.singleton_subset_iff.mp held) parameter
        replacement).bind fun _ given => .done given
    refine inside.bind fun q given => ?_
    exact create_confined (single_held Key.quoted (Set.singleton_subset_iff.mpr given) l)
  | own code => exact codes.expand code p r ctx held parameter replacement equipped.stack

theorem Assigner.apply_confined (f : Assigner H.Code) (held : G.assigner f ⊆ K)
    (known : .value v ∈ K) : (f.apply B v ctx).Confined G K fun _ => True := by
  cases f with
  | name n => exact Name.assign_confined n known
  | own code => exact codes.assign code v ctx held known equipped.stack

end Dispatching

end TraitDispatch
