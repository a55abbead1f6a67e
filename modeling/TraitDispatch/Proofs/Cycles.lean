import Mathlib.Data.Finset.Card
import TraitDispatch.Proofs.Memory
import TraitDispatch.Proofs.Precedence

/- Rules that only ask for other keys of the value they are put to. Such rules may refer to each
   other in any way: a derivation in progress is not begun a second time, so that each derivation
   below another takes a new one of the keys that are asked for. As long as validations find
   nothing, nothing is written, and what is found ends the search. -/
namespace TraitDispatch
variable {H : Host} {α β : Type} {B : Behaviour H} {fuel : Nat} {v : Value} {ctx : Context}
  {w mid : World H} {k : Kind} {e : EnvironmentId} {keys : Finset Nat}
  {allowed : Moment H → Prop}

structure Program.EndsAllowed (B : Behaviour H) (allowed : Moment H → Prop) (m : Program H α)
    (w : World H) (ends : Except Failure α → World H → Prop) : Prop where
  comes : ∃ r after, m.Ends B w r after ∧ ends r after
  puts : ∀ fuel, ∀ n ∈ m.run.history B fuel w, allowed n

namespace Program.EndsAllowed
variable {m : Program H α} {f : α → Program H β} {ends narrow : Except Failure α → World H → Prop}
  {rest : Except Failure β → World H → Prop}

theorem weaken (completes : m.EndsAllowed B allowed w narrow)
    (wide : ∀ r after, narrow r after → ends r after) : m.EndsAllowed B allowed w ends := by
  obtain ⟨⟨r, after, ran, ended⟩, puts⟩ := completes
  exact ⟨⟨r, after, ran, wide r after ended⟩, puts⟩

theorem done {a : α} (ended : ends (.ok a) w) :
    (pure a : Program H α).EndsAllowed B allowed w ends :=
  ⟨⟨_, w, .done a w, ended⟩, fun _ _ member => absurd member List.not_mem_nil⟩

theorem bind (first : m.EndsAllowed B allowed w ends)
    (next : ∀ a mid, ends (.ok a) mid → (f a).EndsAllowed B allowed mid rest)
    (failed : ∀ failure mid, ends (.error failure) mid → rest (.error failure) mid) :
    (m >>= f).EndsAllowed B allowed w rest := by
  obtain ⟨⟨r, mid, ran, ended⟩, puts⟩ := first
  cases r with
  | error failure =>
    refine ⟨⟨_, mid, .bind_failed ran, failed failure mid ended⟩, fun fuel n member => ?_⟩
    cases begun : m.perform (respond B fuel) w with
    | none =>
      rw [Program.history_bind_none begun] at member
      exact puts fuel n member
    | some p =>
      obtain ⟨r, mid'⟩ := p
      obtain ⟨rfl, rfl⟩ := Program.ends_unique ran ⟨fuel, begun⟩
      rw [Program.history_bind_error begun] at member
      exact puts fuel n member
  | ok a =>
    obtain ⟨⟨r, after, ran', ended'⟩, puts'⟩ := next a mid ended
    refine ⟨⟨r, after, .bind ran ran', ended'⟩, fun fuel n member => ?_⟩
    cases begun : m.perform (respond B fuel) w with
    | none =>
      rw [Program.history_bind_none begun] at member
      exact puts fuel n member
    | some p =>
      obtain ⟨r, mid'⟩ := p
      obtain ⟨rfl, rfl⟩ := Program.ends_unique ran ⟨fuel, begun⟩
      rw [Program.history_bind_ok begun] at member
      rcases List.mem_append.mp member with before | later
      · exact puts fuel n before
      · exact puts' fuel n later

end Program.EndsAllowed

def Act.Quiet : Act H α → Prop
  | .done _ => True
  | .ask request next => (∃ a, request = .access a) ∧ ∀ answer, (next answer).Quiet

theorem Act.Quiet.ends {m : Act H α} (quiet : m.Quiet) (w : World H) :
    (∃ a after, m.Ends B w a after) ∧
      ∀ fuel, ∀ n ∈ m.history B fuel w, ∃ a, n.request = .access a := by
  induction m generalizing w with
  | done a => exact ⟨⟨a, w, .done a w⟩, fun _ _ member => absurd member List.not_mem_nil⟩
  | ask request next ih =>
    obtain ⟨⟨access, rfl⟩, rest⟩ := quiet
    obtain ⟨⟨a, after, fuel, ran⟩, puts⟩ := ih (access.perform w).1 (rest _) (access.perform w).2
    constructor
    · refine ⟨a, after, fuel, ?_⟩
      rw [Act.run, respond_access]
      exact ran
    · intro fuel n member
      rw [history_ask, respond_access, nested_at_once rfl, List.singleton_append,
        List.mem_cons] at member
      rcases member with rfl | later
      · exact ⟨access, rfl⟩
      · exact puts fuel n later

def Program.Quiet (m : Program H α) : Prop := m.run.Quiet

def World.Declares (w : World H) (key : Key k) : Prop := w.declared[key.id.index]? = some k

/-- Made of requests for some of the given keys, by choice between validations and by total
    functions of what was found. -/
inductive Validation.Built (w : World H) (keys : Finset Nat) : {α : Type} → Validation H α → Prop
  | conforms {k : Kind} {key : Key k} (listed : key.id.index ∈ keys) (typed : w.Declares key) :
      Built w keys (.conforms key)
  | map {α β : Type} {a : Validation H α} (f : α → β) (built : Built w keys a) :
      Built w keys (a.map f)
  | or {α : Type} {a b : Validation H α} (first : Built w keys a) (second : Built w keys b) :
      Built w keys (a.or b)

/-- Rules whose validations ask for no other keys than the given ones, and instances of a value. The
    functions that compute answers put no requests of their own. -/
structure World.SimplyRuled (B : Behaviour H) (w : World H) (e : EnvironmentId) (v : Value)
    (keys : Finset Nat) : Prop where
  validation : ∀ rule ∈ (w.environment e).rules, (rule.inference B).validation.Built w keys
  derive : ∀ rule ∈ (w.environment e).rules, ∀ source ctx,
    ((rule.inference B).derive source ctx).Quiet
  realize : ∀ i ∈ (w.node v).instances, ∀ ctx, (i.realize B v ctx).Quiet
  rules : ∀ rule ∈ (w.environment e).rules, w.declared[rule.key.index]? = some rule.kind
  instances : ∀ i ∈ (w.node v).instances, w.Declares i.key
  memo : ∀ key answer, w.remembered v key = some answer →
    w.declared[key.index]? = some answer.kind

/-- Returned by a function that computes the answer of a rule or of an instance. -/
inductive World.Returns (B : Behaviour H) (w : World H) (e : EnvironmentId) (v : Value) :
    Failure → Prop
  | rule {rule : Rule H} {source : (rule.inference B).Source} {ctx : Context} {mid after : World H}
      {f : Failure} (member : rule ∈ (w.environment e).rules)
      (returned : ((rule.inference B).derive source ctx).Ends B mid (.error f) after) :
      Returns B w e v f
  | own {i : Instance H} {ctx : Context} {mid after : World H} {f : Failure}
      (member : i ∈ (w.node v).instances)
      (returned : (i.realize B v ctx).Ends B mid (.error f) after) : Returns B w e v f

def World.Explains (B : Behaviour H) (w : World H) (e : EnvironmentId) (v : Value)
    (found : α → Prop) : Except Failure (Option α) → World H → Prop
  | .ok (some a), _ => found a
  | .ok none, after => after = w
  | .error f, _ =>
    (∃ label trace, f = .withTrace (.of (.cyclicDerivation label)) trace) ∨ w.Returns B e v f

/-- A derivation is begun. -/
def Moment.Begins (n : Moment H) : Prop :=
  ∃ v key ctx stack, n.request = .resolve v key ctx ∧ n.world.remembered v key = none ∧
    ctx.stack.derive v key = .ok stack

def Moment.Deeper (w : World H) (e : EnvironmentId) (v : Value) (keys : Finset Nat)
    (active : List Derivation) (n : Moment H) : Prop :=
  (∃ a, n.request = .access a) ∨
    ∃ key s, n = ⟨.resolve v key ⟨e, s⟩, w⟩ ∧ key.index ∈ keys ∧ s.limit = none ∧
      active ⊆ s.active

theorem Instance.kind_of_realize {i : Instance H} {answer : Payload H} {after : World H}
    (ran : (i.realize B v ctx).Ends B w (.ok answer) after) : answer.kind = i.kind := by
  unfold Instance.realize at ran
  cases body : i.body with
  | constant content =>
    rw [body] at ran
    obtain ⟨same, -⟩ := Program.ends_unique ran (.done _ w)
    cases same
    rfl
  | lazy code =>
    rw [body] at ran
    obtain ⟨content, mid, -, wrapped⟩ := ran.split
    obtain ⟨same, -⟩ := Program.ends_unique wrapped (.done _ mid)
    cases same
    rfl

theorem derive_cyclic {s : CallStack} {key : KeyId} {failure : Failure}
    (unlimited : s.limit = none) (refused : s.derive v key = .error failure) :
    failure = .withTrace (.of (.cyclicDerivation key.label)) s.backtrace := by
  by_cases cycle : s.isActive v key
  · rw [CallStack.derive, if_pos cycle] at refused
    exact (Except.error.inj refused).symm
  · have idle : ⟨v, key.index⟩ ∉ s.active := fun member => cycle (CallStack.isActive_iff.mpr member)
    obtain ⟨inner, admitted, -⟩ := derive_unlimited unlimited idle
    rw [admitted] at refused
    cases refused

theorem card_left_lt {active : List Derivation} {index : Nat} (listed : index ∈ keys)
    (idle : ⟨v, index⟩ ∉ active) :
    (keys.filter fun other => ⟨v, other⟩ ∉ (⟨v, index⟩ :: active : List Derivation)).card <
      (keys.filter fun other => ⟨v, other⟩ ∉ active).card := by
  apply Finset.card_lt_card
  rw [Finset.ssubset_iff_of_subset]
  · exact ⟨index, by simp [listed, idle], by simp⟩
  · intro other member
    simp only [Finset.mem_filter, List.mem_cons, not_or] at member ⊢
    exact ⟨member.1, member.2.2⟩

theorem mem_history_resolve {key : KeyId} {n : Moment H} :
    n ∈ (Program.resolve v key ctx : Program H _).run.history B fuel w ↔
      n = ⟨.resolve v key ctx, w⟩ ∨ n ∈ nested B fuel (.resolve v key ctx) w := by
  change n ∈ (Act.request (.resolve v key ctx)).history B fuel w ↔ _
  rw [history_request, List.mem_cons]

theorem Moment.Deeper.fewer {active wider : List Derivation} {n : Moment H}
    (deeper : n.Deeper w e v keys wider) (sub : active ⊆ wider) :
    n.Deeper w e v keys active := by
  rcases deeper with access | ⟨key, s, rfl, listed, unlimited, holds⟩
  · exact .inl access
  · exact .inr ⟨key, s, rfl, listed, unlimited, fun _ member => holds (sub member)⟩

section Search
variable {s : CallStack} {active : List Derivation} {found : α → Prop}

theorem Program.EndsAllowed.either {m : Program H (Option α)} {f : Option α → Program H (Option β)}
    {rest : β → Prop} (first : m.EndsAllowed B allowed w (w.Explains B e v found))
    (some : ∀ a mid, found a → (f (some a)).EndsAllowed B allowed mid (w.Explains B e v rest))
    (none : (f none).EndsAllowed B allowed w (w.Explains B e v rest)) :
    (m >>= f).EndsAllowed B allowed w (w.Explains B e v rest) := by
  refine first.bind (fun a mid ended => ?_) (fun failure mid explained => explained)
  cases a with
  | some a => exact some a mid ended
  | none =>
    obtain rfl : mid = w := ended
    exact none

theorem Program.Quiet.endsAllowed {m : Program H α} {f : α → Option β} {rest : β → Prop}
    (quiet : m.Quiet) (mid : World H)
    (given : ∀ a after, m.Ends B mid (.ok a) after → ∃ b, f a = some b ∧ rest b)
    (returned : ∀ failure after, m.Ends B mid (.error failure) after → w.Returns B e v failure) :
    (f <$> m).EndsAllowed B (Moment.Deeper w e v keys active) mid (w.Explains B e v rest) := by
  obtain ⟨⟨r, after, ran⟩, puts⟩ := Act.Quiet.ends (B := B) quiet mid
  rw [map_eq_pure_bind]
  have quietly : m.EndsAllowed B (Moment.Deeper w e v keys active) mid fun r' after' =>
      m.Ends B mid r' after' :=
    ⟨⟨r, after, ran, ran⟩, fun fuel n member => .inl (puts fuel n member)⟩
  refine quietly.bind (fun a after ends => ?_) (fun failure after ends => ?_)
  · obtain ⟨b, same, holds⟩ := given a after ends
    rw [same]
    exact .done holds
  · exact .inr (returned failure after ends)

def Answerable (B : Behaviour H) (w : World H) (e : EnvironmentId) (v : Value) (keys : Finset Nat)
    (active : List Derivation) (s : CallStack) : Prop :=
  ∀ key : KeyId, key.index ∈ keys →
    (Program.resolve v key ⟨e, s⟩ : Program H _).EndsAllowed B (Moment.Deeper w e v keys active) w
      (w.Explains B e v fun answer => w.declared[key.index]? = some answer.kind)

theorem answer?_endsAllowed (answerable : Answerable B w e v keys active s) {key : Key k}
    (listed : key.id.index ∈ keys) (typed : w.Declares key) :
    (v.answer? key ⟨e, s⟩).EndsAllowed B (Moment.Deeper w e v keys active) w
      (w.Explains B e v fun _ => True) := by
  unfold Value.answer?
  refine (answerable key.id listed).either (fun payload mid declared => ?_) (.done rfl)
  obtain ⟨j, content⟩ := payload
  obtain rfl : k = j := Option.some.inj (typed.symm.trans declared)
  simp only [Payload.as?_self]
  exact .done trivial

theorem Validation.Built.endsAllowed {a : Validation H α} (built : a.Built w keys)
    (answerable : Answerable B w e v keys active s) :
    (a.check v ⟨e, s⟩).EndsAllowed B (Moment.Deeper w e v keys active) w
      (w.Explains B e v fun _ => True) := by
  induction built with
  | conforms listed typed => exact answer?_endsAllowed answerable listed typed
  | map f _ ih => exact ih.either (fun a mid _ => .done trivial) (.done rfl)
  | or _ _ first second => exact first.either (fun a mid _ => .done trivial) second

variable (plain : w.SimplyRuled B e v keys)
include plain

theorem Rule.derive_endsAllowed {rule : Rule H} (member : rule ∈ (w.environment e).rules)
    (source : (rule.inference B).Source) (mid : World H) :
    (rule.derive B source ⟨e, s⟩).EndsAllowed B (Moment.Deeper w e v keys active) mid
      (w.Explains B e v fun answer => answer.kind = rule.kind) :=
  (plain.derive rule member source ⟨e, s⟩).endsAllowed mid (fun _ _ _ => ⟨_, rfl, rfl⟩)
    (fun _ _ returned => .rule member returned)

theorem applyFirst_endsAllowed (answerable : Answerable B w e v keys active s) {index : Nat}
    {rules : List (Rule H)}
    (registered : ∀ rule ∈ rules, rule ∈ (w.environment e).rules ∧ rule.key.index = index) :
    (applyFirst B v ⟨e, s⟩ rules).EndsAllowed B (Moment.Deeper w e v keys active) w
      (w.Explains B e v fun answer => w.declared[index]? = some answer.kind) := by
  induction rules with
  | nil => exact .done rfl
  | cons rule rest ih =>
    obtain ⟨member, same⟩ := registered rule (List.mem_cons_self ..)
    rw [applyFirst_cons]
    refine ((plain.validation rule member).endsAllowed answerable).either (fun source mid _ => ?_)
      (ih fun r later => registered r (List.mem_cons_of_mem rule later))
    refine (Rule.derive_endsAllowed plain member source mid).weaken ?_
    rintro (failure | _ | answer) after explained
    · exact explained
    · exact explained
    · change w.declared[index]? = _
      rw [← same, plain.rules rule member]
      exact congrArg some explained.symm

theorem deriveAnswer_endsAllowed (answerable : Answerable B w e v keys active s) (key : KeyId) :
    (deriveAnswer B w v key ⟨e, s⟩).EndsAllowed B (Moment.Deeper w e v keys active) w
      (w.Explains B e v fun answer => w.declared[key.index]? = some answer.kind) := by
  unfold deriveAnswer
  cases found : (w.node v).find? key with
  | none =>
    refine applyFirst_endsAllowed plain answerable fun rule member => ?_
    obtain ⟨registered, same⟩ := List.mem_filter.mp member
    exact ⟨registered, KeyId.beq_iff_index_eq.mp same⟩
  | some i =>
    obtain ⟨newer, older, split, -, same⟩ := Node.find?_eq_some_iff.mp found
    have member : i ∈ (w.node v).instances := by simp [split]
    simp only [← map_eq_pure_bind]
    refine (plain.realize i member ⟨e, s⟩).endsAllowed w (fun answer after ran => ⟨_, rfl, ?_⟩)
      (fun _ _ returned => .own member returned)
    rw [Instance.kind_of_realize ran, ← same]
    exact plain.instances i member

/-- Every derivation below another takes one of the keys that are left. -/
theorem resolve_endsAllowed (bound : Nat) {key : KeyId} (unlimited : s.limit = none)
    (few : (keys.filter fun index => ⟨v, index⟩ ∉ s.active).card < bound)
    (listed : key.index ∈ keys) :
    (∃ r after, (Request.resolve v key ⟨e, s⟩).Ends B w r after ∧
      w.Explains B e v (fun answer => w.declared[key.index]? = some answer.kind) r after) ∧
    ∀ fuel, ∀ n ∈ nested B fuel (.resolve v key ⟨e, s⟩) w,
      n.Deeper w e v keys (⟨v, key.index⟩ :: s.active) := by
  -- The bound counts the keys for which nothing is in progress yet. Every derivation takes one.
  induction bound generalizing s key with
  | zero => omega
  | succ bound ih =>
    cases memo : w.remembered v key with
    | some answer =>
      have at_once : (Request.resolve v key ⟨e, s⟩).body? B w = none := by
        simp only [Request.body?, memo]
      refine ⟨⟨_, w, .remembered memo _, plain.memo key answer memo⟩, fun fuel n member => ?_⟩
      rw [nested_at_once at_once] at member
      cases member
    | none =>
      cases admitted : s.derive v key with
      | error failure =>
        have at_once : (Request.resolve v key ⟨e, s⟩).body? B w = none := by
          simp only [Request.body?, memo, admitted]
        refine ⟨⟨_, w, .refused memo admitted, .inl ⟨_, _, derive_cyclic unlimited admitted⟩⟩,
          fun fuel n member => ?_⟩
        rw [nested_at_once at_once] at member
        cases member
      | ok inner =>
        obtain ⟨idle, unlimited', listing⟩ := derived_unlimited unlimited admitted
        have fewer := card_left_lt (v := v) listed idle
        rw [← listing] at fewer ⊢
        have answerable : Answerable B w e v keys inner.active inner := by
          intro other member
          obtain ⟨⟨r, after, ends, explained⟩, puts⟩ := ih unlimited' (by omega) member
          refine ⟨⟨r, after, .resolve ends, explained⟩, fun fuel n put => ?_⟩
          rcases (mem_history_resolve.mp put) with rfl | further
          · exact .inr ⟨other, inner, rfl, member, unlimited', List.Subset.refl _⟩
          · exact (puts fuel n further).fewer (List.subset_cons_self _ _)
        obtain ⟨⟨r, after, ran, explained⟩, puts⟩ := deriveAnswer_endsAllowed plain answerable key
        refine ⟨⟨r, _, .derived memo admitted ran, ?_⟩, fun fuel n member => ?_⟩
        · rcases r with failure | _ | answer
          · exact explained
          · exact explained
          · exact explained
        · cases fuel with
          | zero => cases member
          | succ fuel =>
            rw [nested_body (Request.body?_derived memo admitted)] at member
            exact puts fuel n member

/-- Derivations nested in one another are for keys that differ. -/
theorem nested_keys {key : KeyId} (unlimited : s.limit = none) (listed : key.index ∈ keys)
    {chain : List (Moment H)}
    (inside : (⟨.resolve v key ⟨e, s⟩, w⟩ :: chain).IsChain (Moment.Contains B))
    (begun : ∀ n ∈ chain, n.Begins) :
    ∃ indices : List Nat, indices.length = chain.length ∧ indices.Nodup ∧
      ∀ index ∈ indices, index ∈ keys ∧ ⟨v, index⟩ ∉ (⟨v, key.index⟩ :: s.active) := by
  induction chain generalizing s key with
  | nil => exact ⟨[], rfl, List.nodup_nil, nofun⟩
  | cons n rest ih =>
    obtain ⟨⟨fuel, put⟩, inside'⟩ := List.isChain_cons_cons.mp inside
    obtain ⟨u, other, ctx, stack, begins⟩ := begun n (List.mem_cons_self ..)
    rcases (resolve_endsAllowed plain _ unlimited (Nat.lt_succ_self _) listed).2 fuel n put with
      ⟨access, accessed⟩ | ⟨key', s', rfl, listed', unlimited', holds⟩
    · rw [accessed] at begins
      cases begins.1
    · cases begins.1
      have idle := (CallStack.derive_eq_ok_iff.mp begins.2.2).1
      obtain ⟨indices, length, distinct, free⟩ := ih unlimited' listed' inside' fun m member =>
        begun m (List.mem_cons_of_mem _ member)
      refine ⟨other.index :: indices, by simp [length], ?_, ?_⟩
      · refine List.nodup_cons.mpr ⟨fun member => ?_, distinct⟩
        exact (free _ member).2 (List.mem_cons_self ..)
      · intro index member
        rcases List.mem_cons.mp member with rfl | deeper
        · exact ⟨listed', fun active => idle (holds active)⟩
        · obtain ⟨known, unused⟩ := free index deeper
          exact ⟨known, fun active => unused (List.mem_cons_of_mem _ (holds active))⟩

end Search

/-- Resolving a key on a value ends where rules are plain and there is no limit, however the rules
    ask for each other: with an answer, without one, with a cycle or with a failure that a function
    returned. No more derivations are ever nested in one another than there are keys asked for. -/
theorem resolve_plain_ends {key : KeyId} {s : CallStack} (plain : w.SimplyRuled B e v keys)
    (listed : key.index ∈ keys) (unlimited : s.limit = none) :
    (∃ r after, (Request.resolve v key ⟨e, s⟩).Ends B w r after ∧ ∀ f, r = .error f →
      (∃ label trace, f = .withTrace (.of (.cyclicDerivation label)) trace) ∨
        w.Returns B e v f) ∧
    ∀ chain, (⟨.resolve v key ⟨e, s⟩, w⟩ :: chain).IsChain (Moment.Contains B) →
      (∀ n ∈ chain, n.Begins) → chain.length + 1 ≤ keys.card := by
  constructor
  · obtain ⟨⟨r, after, ends, explained⟩, -⟩ :=
      resolve_endsAllowed plain _ unlimited (Nat.lt_succ_self _) listed
    refine ⟨r, after, ends, ?_⟩
    rintro f rfl
    exact explained
  · intro chain inside begun
    obtain ⟨indices, length, distinct, free⟩ := nested_keys plain unlimited listed inside begun
    have fresh : key.index ∉ indices := fun member => (free _ member).2 (List.mem_cons_self ..)
    have inKeys : (key.index :: indices).toFinset ⊆ keys := by
      intro index member
      rcases List.mem_cons.mp (List.mem_toFinset.mp member) with rfl | deeper
      · exact listed
      · exact (free index deeper).1
    have count := Finset.card_le_card inKeys
    rw [List.toFinset_card_of_nodup (List.nodup_cons.mpr ⟨fresh, distinct⟩), List.length_cons,
      length] at count
    exact count

/-- A name is what has a text, and a text is what has a number or else a name. -/
def circular : Behaviour Host.unit :=
  { inert with
    infer := fun
      | .name, _ => ⟨Name, (Validation.conforms Key.text).map (⟨·.text⟩), fun n _ => return n⟩
      | .text, _ => ⟨String, .or ((Validation.conforms Key.number).map fun _ => "number")
          ((Validation.conforms Key.name).map (·.name)), fun s _ => return ⟨s, none⟩⟩
      | _, _ => ⟨Unit, ⟨fun _ _ => return none⟩, fun _ _ => throw (.of (.custom ""))⟩ }

def circularWorld : World Host.unit :=
  { World.initial () with
    cells := #[⟨.bare none, []⟩]
    environments := #[{ rules := [.own .name Key.name (), .own .text Key.text ()] }] }

theorem circular_plain : circularWorld.SimplyRuled circular ⟨0⟩ ⟨0⟩ {0, 5, 6} where
  validation rule member := by
    rcases List.mem_cons.mp member with rfl | member
    · exact .map _ (.conforms (by decide) rfl)
    · obtain rfl := List.mem_singleton.mp member
      exact .or (.map _ (.conforms (by decide) rfl)) (.map _ (.conforms (by decide) rfl))
  derive rule member := by
    rcases List.mem_cons.mp member with rfl | member
    · exact fun _ _ => trivial
    · obtain rfl := List.mem_singleton.mp member
      exact fun _ _ => trivial
  realize i member := absurd member List.not_mem_nil
  rules rule member := by
    rcases List.mem_cons.mp member with rfl | member
    · rfl
    · obtain rfl := List.mem_singleton.mp member
      rfl
  instances i member := absurd member List.not_mem_nil
  memo key answer memo := by cases memo

theorem circular_name_ends :
    circularWorld.SimplyRuled circular ⟨0⟩ ⟨0⟩ {0, 5, 6} ∧
    Key.name.id.index ∈ ({0, 5, 6} : Finset Nat) ∧
    CallStack.fresh.limit = none ∧
    ∃ f after, (Request.resolve ⟨0⟩ Key.name.id ⟨⟨0⟩, .fresh⟩).Ends circular circularWorld
        (.error f) after ∧
      ((∃ label trace, f = .withTrace (.of (.cyclicDerivation label)) trace) ∨
        circularWorld.Returns circular ⟨0⟩ ⟨0⟩ f) ∧
      ∀ chain, (⟨.resolve ⟨0⟩ Key.name.id ⟨⟨0⟩, .fresh⟩, circularWorld⟩ :: chain).IsChain
          (Moment.Contains circular) → (∀ n ∈ chain, n.Begins) → chain.length + 1 ≤ 3 := by
  have listed : Key.name.id.index ∈ ({0, 5, 6} : Finset Nat) := by decide
  obtain ⟨⟨r, after, ends, explained⟩, nested⟩ :=
    resolve_plain_ends (s := .fresh) circular_plain listed rfl
  obtain ⟨f, mid, failed⟩ : ∃ f mid, (Request.resolve ⟨0⟩ Key.name.id ⟨⟨0⟩, .fresh⟩).Ends circular
      circularWorld (.error f) mid := ⟨_, _, 9, rfl⟩
  obtain ⟨rfl, -⟩ := Request.ends_unique ends failed
  exact ⟨circular_plain, listed, rfl, f, after, ends, explained f rfl, nested⟩

end TraitDispatch
