import Mathlib.Data.Finset.Card
import Mathlib.Data.Nat.Find
import TraitDispatch.Proofs.Recomputation
import TraitDispatch.Proofs.Representation

/- Answers found with memo tables are those found without them, also for rules that ask in
   cycles. A remembered answer was found by a search in which nothing else was in progress. The
   same search below a chain of derivations could only be cut short by one of the chain; but each
   of the chain asks, on the way to its own answer, for what was remembered, so that it would
   have to be settled later than what it is asked by. -/
namespace TraitDispatch
variable {H : Host} {α : Type} {B : Behaviour H} {G : Payload H → Prop}

namespace World

@[simp]
theorem node_forget (w : World H) (v : Value) : w.forget.node v = w.node v := by
  simp only [node, forget, Array.getElem?_map]
  cases w.cells[v.id]? <;> rfl

@[simp]
theorem environment_forget (w : World H) (e : EnvironmentId) :
    w.forget.environment e = w.environment e := rfl

@[simp]
theorem made_forget {w : World H} {v : Value} : w.forget.Made v ↔ w.Made v := by
  simp [Made, forget]

theorem remembered_forget (w : World H) (v : Value) (key : KeyId) :
    w.forget.remembered v key = none := by
  simp only [remembered, forget, Array.getElem?_map]
  cases w.cells[v.id]? <;> rfl

theorem forget_forget (w : World H) : w.forget.forget = w.forget := by
  simp [forget, Function.comp_def]

theorem forget_remember (w : World H) (v : Value) (key : KeyId) (answer : Payload H) :
    (w.remember v key answer).forget = w.forget := by
  have cells : (w.remember v key answer).forget.cells = w.forget.cells := by
    apply Array.ext_getElem?
    intro i
    simp only [forget, remember, Array.getElem?_map, Array.getElem?_modify]
    by_cases here : v.id = i
    · simp [here, Function.comp_def]
    · simp [here]
  simp only [forget] at cells
  simp only [forget, remember] at cells ⊢
  rw [cells]

theorem node_of_forget {w w' : World H} (alike : w'.forget = w.forget) (v : Value) :
    w'.node v = w.node v := by
  rw [← node_forget w', alike, node_forget]

theorem environment_of_forget {w w' : World H} (alike : w'.forget = w.forget)
    (e : EnvironmentId) : w'.environment e = w.environment e := by
  rw [← environment_forget w', alike, environment_forget]

theorem made_of_forget {w w' : World H} (alike : w'.forget = w.forget) {v : Value} :
    w'.Made v ↔ w.Made v := by
  rw [← made_forget, alike, made_forget]

end World

/-- What each derivation asks, in every world that has the same values and environments. -/
structure Describes (B : Behaviour H) (w : World H) (e : EnvironmentId) (G : Payload H → Prop)
    (d : Derivation → Query H KeyId (Option (Payload H))) : Prop where
  covered : ∀ p : Derivation, w.Made p.value → (d p).Over w G fun found => ∀ x ∈ found, G x
  asks : ∀ p : Derivation, w.Made p.value → ∀ (w' : World H) (key : KeyId) (ctx : Context),
    w'.forget = w.forget → key.index = p.key → ctx.environment = e →
      deriveAnswer B w' p.value key ctx = (d p).program id ctx

theorem applyFirst_inquires {w : World H} {v : Value} (rules : List (Rule H))
    (each : ∀ rule ∈ rules, Inquires w G (fun found => ∀ p ∈ found, G p)
      fun ctx => rule.apply B v ctx) :
    Inquires w G (fun found => ∀ p ∈ found, G p) fun ctx => applyFirst B v ctx rules := by
  induction rules with
  | nil => exact inquires_pure nofun
  | cons rule rest ih =>
    obtain ⟨others, covered, asks⟩ := ih fun r member => each r (List.mem_cons_of_mem rule member)
    refine (each rule (List.mem_cons_self ..)).bind fun found => ?_
    cases found with
    | none => exact ⟨others, fun _ => covered, asks⟩
    | some answer => exact ⟨.done (some answer), id, fun _ => rfl⟩

theorem derivation_inquires {w : World H} {e : EnvironmentId} (effectless : Effectless B w e G)
    {v : Value} (made : w.Made v) (index : Nat) :
    ∃ q : Query H KeyId (Option (Payload H)), (q.Over w G fun found => ∀ x ∈ found, G x) ∧
      ∀ (w' : World H) (key : KeyId) (ctx : Context), w'.forget = w.forget → key.index = index →
        ctx.environment = e → deriveAnswer B w' v key ctx = q.program id ctx := by
  have found_index : ∀ key : KeyId, key.index = index →
      (w.node v).find? key = (w.node v).find? ⟨index, ""⟩ := by
    rintro key rfl
    rfl
  have rules_index : ∀ key : KeyId, key.index = index →
      (w.environment e).rulesFor key = (w.environment e).rulesFor ⟨index, ""⟩ := by
    rintro key rfl
    rfl
  cases found : (w.node v).find? ⟨index, ""⟩ with
  | some own =>
    have given : Inquires w G (fun found => ∀ x ∈ found, G x) fun ctx =>
      some <$> own.realize B v ctx :=
      (effectless.instances v made own (List.mem_of_find?_eq_some found)).map
        fun p held x same => by
        cases same
        exact held
    obtain ⟨q, covered, asks⟩ := given
    simp only [map_eq_pure_bind] at asks
    refine ⟨q, covered, fun w' key ctx alike same _ => ?_⟩
    rw [← asks ctx]
    simp only [deriveAnswer, World.node_of_forget alike, found_index key same, found]
  | none =>
    obtain ⟨q, covered, asks⟩ := applyFirst_inquires (B := B) (w := w) (v := v)
      ((w.environment e).rulesFor ⟨index, ""⟩)
      fun rule member => effectless.rules rule (List.mem_filter.mp member).1 v made
    refine ⟨q, covered, fun w' key ctx alike same environment => ?_⟩
    rw [← asks ctx]
    simp only [deriveAnswer, World.node_of_forget alike, found_index key same, found, environment,
      World.environment_of_forget alike, rules_index key same]

theorem exists_description {w : World H} {e : EnvironmentId} (effectless : Effectless B w e G) :
    ∃ d, Describes B w e G d := by
  have each : ∀ p : Derivation, ∃ q : Query H KeyId (Option (Payload H)), w.Made p.value →
      (q.Over w G fun found => ∀ x ∈ found, G x) ∧
      ∀ (w' : World H) (key : KeyId) (ctx : Context), w'.forget = w.forget → key.index = p.key →
        ctx.environment = e → deriveAnswer B w' p.value key ctx = q.program id ctx := by
    intro p
    by_cases made : w.Made p.value
    · obtain ⟨q, described⟩ := derivation_inquires effectless made p.key
      exact ⟨q, fun _ => described⟩
    · exact ⟨.done none, fun now => absurd now made⟩
  obtain ⟨d, described⟩ := Classical.skolem.mp each
  exact ⟨d, fun p made => (described p made).1, fun p made => (described p made).2⟩

section Search
variable {w : World H} {e : EnvironmentId} {d : Derivation → Query H KeyId (Option (Payload H))}

theorem program_recompute {fuel : Nat} (ctx : Context)
    (answers : ∀ v key, w.Made v → recompute B fuel (.resolve v key ctx) w.forget =
      (solve d fuel ctx.stack v key).map fun r => (r, w.forget))
    (held : ∀ v key found, w.Made v → solve d fuel ctx.stack v key = some (.ok found) →
      ∀ p ∈ found, G p)
    {q : Query H KeyId α} {good : α → Prop} (covered : q.Over w G good) :
    (q.program id ctx).perform (recompute B fuel) w.forget =
      (q.eval (solve d fuel ctx.stack) ctx.stack).map fun r => (r, w.forget) := by
  induction q with
  | done a | fail failure | raise cause | missing key | mismatch key => rfl
  | ask v key next ih =>
    have first : (Program.resolve v key ctx).perform (recompute B fuel) w.forget =
        (solve d fuel ctx.stack v key).map fun r => (r, w.forget) :=
      (Act.run_request _ _ _).trans (answers v key covered.1)
    simp only [Query.program, id, Program.perform_bind, first, Query.eval]
    rcases answered : solve d fuel ctx.stack v key with _ | failure | found
    · rfl
    · rfl
    · exact ih found (covered.2 found (held v key found covered.1 answered))

/-- Resolving without memo tables is the search. -/
theorem recompute_eq_solve (described : Describes B w e G d) (fuel : Nat) (s : CallStack)
    (v : Value) (key : KeyId) (made : w.Made v) :
    recompute B fuel (.resolve v key ⟨e, s⟩) w.forget =
      (solve d fuel s v key).map fun r => (r, w.forget) := by
  induction fuel generalizing s v key with
  | zero => rfl
  | succ fuel ih =>
    simp only [recompute, solve]
    cases s.derive v key with
    | error failure => rfl
    | ok inner =>
      have asked := described.asks ⟨v, key.index⟩ made w.forget key
        (Context.withStack ⟨e, s⟩ inner) (World.forget_forget w) rfl rfl
      simp only [asked]
      exact program_recompute ⟨e, inner⟩ (fun u k there => ih inner u k there)
        (fun _ _ _ => solve_good described.covered) (described.covered ⟨v, key.index⟩ made)

def Sound (d : Derivation → Query H KeyId (Option (Payload H))) (w : World H) : Prop :=
  ∀ v key answer, w.remembered v key = some answer →
    ∃ fuel, Settles d fuel ⟨v, key.index⟩ (some answer)

def Leads (d : Derivation → Query H KeyId (Option (Payload H))) (s : CallStack) (p : Derivation) :
    Prop :=
  ∀ q ∈ s.active, ∀ fuel a, Settles d fuel q a → ∃ less, less < fuel ∧ ∃ b, Settles d less p b

theorem solve_remembered {s : CallStack} {v : Value} {key : KeyId} {answer : Payload H}
    (unlimited : s.limit = none) (leads : Leads d s ⟨v, key.index⟩)
    (settles : ∃ fuel, Settles d fuel ⟨v, key.index⟩ (some answer)) :
    ∃ fuel, solve d fuel s v key = some (.ok (some answer)) := by
  classical
  have least := Nat.find_spec settles
  refine ⟨Nat.find settles, solve_of_settles least (fun q member b settled => ?_) unlimited⟩
  obtain ⟨less, lt, c, earlier⟩ := leads q member _ b settled
  have same : some answer = c := least.unique earlier
  subst same
  exact Nat.find_min settles lt earlier

/-- A pair in progress settles only through what is left of its derivation. -/
def Residual (d : Derivation → Query H KeyId (Option (Payload H))) (p : Derivation)
    (q : Query H KeyId (Option (Payload H))) : Prop :=
  ∀ fuel a, Settles d fuel p a → ∃ less t, less < fuel ∧
    q.eval (solve d less t) t = some (.ok a)

theorem residual_derivation (p : Derivation) : Residual d p (d p) := by
  intro fuel a settles
  cases fuel with
  | zero => simp [Settles, solve] at settles
  | succ fuel =>
    simp only [Settles, solve] at settles
    cases alone : CallStack.fresh.derive p.value ⟨p.key, ""⟩ with
    | error failure => simp [alone] at settles
    | ok inner =>
      rw [alone] at settles
      exact ⟨fuel, inner, Nat.lt_succ_self fuel, settles⟩

theorem residual_ask {p : Derivation} {v : Value} {key : KeyId}
    {next : Option (Payload H) → Query H KeyId (Option (Payload H))}
    (residual : Residual d p (.ask v key next)) {fuel : Nat} {a : Option (Payload H)}
    (settles : Settles d fuel p a) :
    ∃ less t, less < fuel ∧ ∃ b, Settles d less ⟨v, key.index⟩ b ∧
      (next b).eval (solve d less t) t = some (.ok a) := by
  obtain ⟨less, t, lt, ran⟩ := residual fuel a settles
  simp only [Query.eval] at ran
  rcases first : solve d less t v key with _ | failure | found
  · simp [first] at ran
  · simp [first] at ran
  · rw [first] at ran
    exact ⟨less, t, lt, found, settles_of_solve first, ran⟩

theorem residual_next {p : Derivation} {v : Value} {key : KeyId}
    {next : Option (Payload H) → Query H KeyId (Option (Payload H))}
    (residual : Residual d p (.ask v key next)) {enough : Nat} {b : Option (Payload H)}
    (settled : Settles d enough ⟨v, key.index⟩ b) : Residual d p (next b) := by
  intro fuel a settles
  obtain ⟨less, t, lt, found, here, ran⟩ := residual_ask residual settles
  obtain rfl := here.unique settled
  exact ⟨less, t, lt, ran⟩

theorem leads_inner {s inner : CallStack} {p : Derivation} {v : Value} {key : KeyId}
    {next : Option (Payload H) → Query H KeyId (Option (Payload H))}
    (listed : inner.active = p :: s.active) (leads : Leads d s p)
    (residual : Residual d p (.ask v key next)) : Leads d inner ⟨v, key.index⟩ := by
  intro q member fuel a settles
  rw [listed] at member
  rcases List.mem_cons.mp member with here | above
  · subst q
    obtain ⟨less, -, lt, b, asked, -⟩ := residual_ask residual settles
    exact ⟨less, lt, b, asked⟩
  · obtain ⟨less, lt, b, sub⟩ := leads q above fuel a settles
    obtain ⟨least, -, lt', c, asked, -⟩ := residual_ask residual sub
    exact ⟨least, by omega, c, asked⟩

/-- An end that the search has as well, in a world that differs in what is remembered. -/
def Matches (w : World H) (d : Derivation → Query H KeyId (Option (Payload H)))
    (search : Nat → Option (Except Failure α)) (p : Except Failure α × World H) : Prop :=
  (∃ fuel, search fuel = some p.1) ∧ p.2.forget = w.forget ∧ Sound d p.2

theorem program_matches (described : Describes B w e G d) {fuel : Nat} {s inner : CallStack}
    {p : Derivation} (listed : inner.active = p :: s.active) (leads : Leads d s p)
    (answers : ∀ (v : Value) (key : KeyId) (w' : World H) r, w.Made v → w'.forget = w.forget →
      Sound d w' → Leads d inner ⟨v, key.index⟩ →
      respond B fuel (.resolve v key ⟨e, inner⟩) w' = some r →
      Matches w d (fun n => solve d n inner v key) r)
    {q : Query H KeyId (Option (Payload H))} {good : Option (Payload H) → Prop}
    (covered : q.Over w G good) (residual : Residual d p q) (w' : World H)
    (alike : w'.forget = w.forget) (sound : Sound d w')
    (r : Except Failure (Option (Payload H)) × World H)
    (ran : (q.program id ⟨e, inner⟩).perform (respond B fuel) w' = some r) :
    Matches w d (fun n => q.eval (solve d n inner) inner) r := by
  induction q generalizing w' with
  | done a | fail failure | raise cause | missing key | mismatch key =>
    cases ran
    exact ⟨⟨0, rfl⟩, alike, sound⟩
  | ask v key next ih =>
    have asked : (Program.resolve v key ⟨e, inner⟩).perform (respond B fuel) w' =
        respond B fuel (.resolve v key ⟨e, inner⟩) w' := Act.run_request _ _ _
    simp only [Query.program, id, Program.perform_bind, asked] at ran
    cases first : respond B fuel (.resolve v key ⟨e, inner⟩) w' with
    | none => simp [first] at ran
    | some found =>
      rw [first] at ran
      obtain ⟨⟨n, searched⟩, alike', sound'⟩ := answers v key w' found covered.1 alike sound
        (leads_inner listed leads residual) first
      dsimp only at searched
      obtain ⟨failure | b, after⟩ := found
      · cases ran
        refine ⟨⟨n, ?_⟩, alike', sound'⟩
        simp only [Query.eval]
        rw [searched]
      -- The answer is a settled one, so the code goes on as it would in the search.
      · have left := residual_next residual (settles_of_solve searched)
        have held := solve_good described.covered covered.1 searched
        obtain ⟨⟨k, rest⟩, ends⟩ := ih b (covered.2 b held) left after alike' sound' ran
        refine ⟨⟨max n k, ?_⟩, ends⟩
        simp only [Query.eval]
        rw [solve_mono (Nat.le_max_left n k) inner v key _ searched]
        exact Query.eval_mono
          (fun u j r => solve_mono (Nat.le_max_right n k) inner u j r) rest

theorem Sound.remember {w : World H} {v : Value} {key : KeyId} {answer : Payload H} {fuel : Nat}
    (sound : Sound d w) (settled : Settles d fuel ⟨v, key.index⟩ (some answer)) :
    Sound d (w.remember v key answer) := by
  intro u k x memo
  rcases World.remembered_of_remember memo with ⟨rfl, index, rfl⟩ | old
  · rw [index]
    exact ⟨fuel, settled⟩
  · exact sound u k x old

/-- An answer given with memo tables is the one that the search finds, and what is remembered
    afterwards was found by the search. -/
theorem respond_matches (described : Describes B w e G d) (fuel : Nat) (s : CallStack) (v : Value)
    (key : KeyId) (w' : World H) (made : w.Made v) (alike : w'.forget = w.forget)
    (sound : Sound d w') (unlimited : s.limit = none) (leads : Leads d s ⟨v, key.index⟩)
    (r : Except Failure (Option (Payload H)) × World H)
    (answered : respond B fuel (.resolve v key ⟨e, s⟩) w' = some r) :
    Matches w d (fun n => solve d n s v key) r := by
  induction fuel generalizing s v key w' r with
  | zero => simp [respond] at answered
  | succ fuel ih =>
    simp only [respond, resolve] at answered
    cases memo : w'.remembered v key with
    | some answer =>
      simp only [memo, Option.some.injEq] at answered
      subst answered
      -- What is in progress leads here, and what is settled never leads back to it. So the search
      -- meets no cycle where the table spares the derivation.
      exact ⟨solve_remembered unlimited leads (sound v key answer memo), alike, sound⟩
    | none =>
      rw [memo] at answered
      cases admitted : s.derive v key with
      | error failure =>
        simp only [admitted, Option.some.injEq] at answered
        subst answered
        exact ⟨⟨1, by simp only [solve, admitted]⟩, alike, sound⟩
      | ok inner =>
        have asked := described.asks ⟨v, key.index⟩ made w' key ⟨e, inner⟩ alike rfl rfl
        obtain ⟨idle, unlimited', listed⟩ := derived_unlimited unlimited admitted
        have body := program_matches described listed leads
          (fun u k w1 r there alike sound leads ran =>
            ih inner u k w1 there alike sound unlimited' leads r ran)
          (described.covered ⟨v, key.index⟩ made) (residual_derivation _) w' alike sound
        simp only [admitted, Context.withStack, asked] at answered
        cases ran : ((d ⟨v, key.index⟩).program id ⟨e, inner⟩).perform (respond B fuel) w' with
        | none => simp [ran] at answered
        | some q =>
          rw [ran] at answered
          obtain ⟨⟨n, searched⟩, alike', sound'⟩ := body q ran
          have found : solve d (n + 1) s v key = some q.1 := by
            simp only [solve, admitted, searched]
          obtain ⟨_ | _ | answer, after⟩ := q
          · cases answered
            exact ⟨⟨n + 1, found⟩, alike', sound'⟩
          · cases answered
            exact ⟨⟨n + 1, found⟩, alike', sound'⟩
          · cases answered
            have here : after.Made v := (World.made_of_forget alike').mpr made
            refine ⟨⟨n + 1, found⟩, ?_, sound'.remember (settles_of_solve found)⟩
            rw [World.forget_remember, alike']

def candidates (w : World H) (e : EnvironmentId) : List Derivation :=
  let own := (List.range w.cells.size).flatMap fun id =>
    (w.node ⟨id⟩).instances.map (·.key.id.index)
  let derived := (w.environment e).rules.map (·.key.index)
  (List.range w.cells.size).flatMap fun id => (own ++ derived).map fun key => ⟨⟨id⟩, key⟩

theorem derives_nothing {v : Value} {key : KeyId} (ctx : Context) {w' : World H}
    (made : w.Made v) (alike : w'.forget = w.forget) (environment : ctx.environment = e)
    (other : ⟨v, key.index⟩ ∉ candidates w e) : deriveAnswer B w' v key ctx = pure none := by
  have member : ∀ k : Nat, (k ∈ (List.range w.cells.size).flatMap (fun id =>
      (w.node ⟨id⟩).instances.map (·.key.id.index)) ∨
      k ∈ (w.environment e).rules.map (·.key.index)) → (⟨v, k⟩ : Derivation) ∈ candidates w e := by
    intro k known
    refine List.mem_flatMap.mpr ⟨v.id, List.mem_range.mpr made, List.mem_map.mpr ⟨k, ?_, rfl⟩⟩
    exact List.mem_append.mpr known
  have no_instance : (w.node v).find? key = none := by
    refine List.find?_eq_none.mpr fun i own same => other (member _ (.inl ?_))
    refine List.mem_flatMap.mpr ⟨v.id, List.mem_range.mpr made, List.mem_map.mpr ⟨i, own, ?_⟩⟩
    exact KeyId.beq_iff_index_eq.mp same
  have no_rule : (w.environment e).rulesFor key = [] := by
    refine List.filter_eq_nil_iff.mpr fun rule registered same => other (member _ (.inr ?_))
    exact List.mem_map.mpr ⟨rule, registered, KeyId.beq_iff_index_eq.mp same⟩
  simp only [deriveAnswer, World.node_of_forget alike, no_instance, environment,
    World.environment_of_forget alike, no_rule, applyFirst]

structure World.Recalling (G : Payload H → Prop) (w after : World H) : Prop where
  alike : after.forget = w.forget
  held : ∀ v key p, after.remembered v key = some p → G p

theorem World.Recalling.remember {v : Value} {key : KeyId} {p : Payload H} {mid : World H}
    (recalling : w.Recalling G mid) (held : G p) : w.Recalling G (mid.remember v key p) where
  alike := (World.forget_remember ..).trans recalling.alike
  held u other x memo := by
    rcases World.remembered_of_remember memo with ⟨-, -, rfl⟩ | old
    · exact held
    · exact recalling.held u other x old

theorem program_total (ctx : Context)
    (answers : ∀ v key (w' : World H), w.Made v → w.Recalling G w' →
      ∃ r after, (Request.resolve v key ctx).Ends B w' r after ∧ w.Recalling G after ∧
        ∀ found, r = .ok found → ∀ p ∈ found, G p)
    {q : Query H KeyId α} {good : α → Prop} (covered : q.Over w G good) (w' : World H)
    (recalling : w.Recalling G w') :
    ∃ r after, (q.program id ctx).Ends B w' r after ∧ w.Recalling G after ∧
      ∀ a, r = .ok a → good a := by
  induction q generalizing w' with
  | done a =>
    refine ⟨_, w', .done a w', recalling, fun b same => ?_⟩
    cases same
    exact covered
  | fail failure | raise cause | missing key | mismatch key =>
    exact ⟨_, w', .failed _ w', recalling, nofun⟩
  | ask v key next ih =>
    obtain ⟨found, mid, ends, recalling', held⟩ := answers v key w' covered.1 recalling
    cases found with
    | error failure => exact ⟨_, mid, .bind_failed (.resolve ends), recalling', nofun⟩
    | ok answer =>
      obtain ⟨r, after, rest, kept⟩ := ih answer (covered.2 answer (held answer rfl)) mid recalling'
      exact ⟨r, after, .bind (.resolve ends) rest, kept⟩

theorem resolve_total (described : Describes B w e G d) (bound : Nat) (s : CallStack) (v : Value)
    (key : KeyId) (w' : World H) (made : w.Made v) (recalling : w.Recalling G w')
    (unlimited : s.limit = none)
    (few : ((candidates w e).toFinset \ s.active.toFinset).card < bound) :
    ∃ r after, (Request.resolve v key ⟨e, s⟩).Ends B w' r after ∧ w.Recalling G after ∧
      ∀ found, r = .ok found → ∀ p ∈ found, G p := by
  induction bound generalizing s v key w' with
  | zero => omega
  | succ bound ih =>
    cases memo : w'.remembered v key with
    | some answer =>
      refine ⟨_, w', .remembered memo _, recalling, fun found same x inside => ?_⟩
      cases same
      cases inside
      exact recalling.held v key answer memo
    | none =>
      by_cases idle : ⟨v, key.index⟩ ∈ s.active
      · cases admitted : s.derive v key with
        | error failure => exact ⟨_, w', .refused memo admitted, recalling, nofun⟩
        | ok inner => exact absurd idle (CallStack.derive_eq_ok_iff.mp admitted).1
      · obtain ⟨inner, admitted, unlimited', listed⟩ := derive_unlimited unlimited idle
        -- Beyond the candidates nothing can be derived, and of these only so many are idle.
        by_cases candidate : ⟨v, key.index⟩ ∈ candidates w e
        · have fewer : ((candidates w e).toFinset \ inner.active.toFinset).card <
              ((candidates w e).toFinset \ s.active.toFinset).card := by
            refine Finset.card_lt_card (Finset.ssubset_iff_of_subset ?_ |>.mpr ?_)
            · rw [listed]
              exact Finset.sdiff_subset_sdiff (Finset.Subset.refl _) (by simp)
            · exact ⟨⟨v, key.index⟩, by simp [candidate, idle], by simp [listed]⟩
          obtain ⟨r, after, ran, recalling', held⟩ := program_total (B := B) ⟨e, inner⟩
            (fun u k w1 there recalling => ih inner u k w1 there recalling unlimited' (by omega))
            (described.covered ⟨v, key.index⟩ made) w' recalling
          rw [← described.asks ⟨v, key.index⟩ made w' key ⟨e, inner⟩ recalling.alike rfl rfl] at ran
          refine ⟨r, _, .derived memo admitted ran, ?_, held⟩
          rcases r with _ | _ | answer
          · exact recalling'
          · exact recalling'
          · exact recalling'.remember (held _ rfl answer rfl)
        · have nothing := derives_nothing (B := B) ⟨e, inner⟩ made recalling.alike rfl candidate
          have ran : (deriveAnswer B w' v key ⟨e, inner⟩).Ends B w' (.ok none) w' := by
            rw [nothing]
            exact .done none w'
          have ended : (Request.resolve v key ⟨e, s⟩).Ends B w' (.ok none) w' :=
            .derived memo admitted ran
          refine ⟨_, w', ended, recalling, fun found same => ?_⟩
          cases same
          exact nofun

end Search

def askAll (e : EnvironmentId) : List (Value × KeyId × CallStack) → Act H Unit
  | [] => return ()
  | (v, key, s) :: rest => do
    let _ ← Act.request (.resolve v key ⟨e, s⟩)
    askAll e rest

/-- A query ends, and it ends as if nothing had been remembered. -/
theorem query_recomputed {w w' : World H} {e : EnvironmentId}
    {d : Derivation → Query H KeyId (Option (Payload H))} (described : Describes B w e G d)
    (alike : w'.forget = w.forget) (sound : Sound d w') {v : Value} (key : KeyId) {s : CallStack}
    (made : w.Made v) (opened : s.Open) :
    ∃ answer after, (Request.resolve v key ⟨e, s⟩).Ends B w' answer after ∧
      after.forget = w.forget ∧ Sound d after ∧
      ∃ fuel, recompute B fuel (.resolve v key ⟨e, s⟩) w.forget = some (answer, w.forget) := by
  have recalling : w.Recalling G w' := by
    refine ⟨alike, fun u k p memo => ?_⟩
    obtain ⟨fuel, settled⟩ := sound u k p memo
    have here : w.Made u := by
      by_contra unmade
      rw [← World.made_of_forget alike] at unmade
      rw [World.remembered_unmade unmade] at memo
      cases memo
    exact solve_good described.covered here settled p rfl
  obtain ⟨answer, after, ends, -⟩ := resolve_total described _ s v key w' made recalling
    opened.unlimited (Nat.lt_succ_self _)
  obtain ⟨fuel, answered⟩ := ends
  have leads : Leads d s ⟨v, key.index⟩ := by
    intro q member
    simp [opened.idle] at member
  obtain ⟨⟨n, searched⟩, alike', sound'⟩ := respond_matches described fuel s v key w' made alike
    sound opened.unlimited leads _ answered
  refine ⟨answer, after, ⟨fuel, answered⟩, alike', sound', n, ?_⟩
  dsimp only at searched
  rw [recompute_eq_solve described n s v key made, searched]
  rfl

theorem askAll_sound {w : World H} {e : EnvironmentId}
    {d : Derivation → Query H KeyId (Option (Payload H))} (described : Describes B w e G d)
    (earlier : List (Value × KeyId × CallStack))
    (valid : ∀ q ∈ earlier, w.Made q.1 ∧ q.2.2.Open) (w' : World H)
    (alike : w'.forget = w.forget) (sound : Sound d w') :
    ∃ mid, (askAll e earlier).Ends B w' () mid ∧ mid.forget = w.forget ∧ Sound d mid := by
  induction earlier generalizing w' with
  | nil => exact ⟨w', .done () w', alike, sound⟩
  | cons q rest ih =>
    obtain ⟨v, key, s⟩ := q
    obtain ⟨made, opened⟩ := valid _ (List.mem_cons_self ..)
    obtain ⟨answer, after, ⟨fuel, answered⟩, alike', sound', -⟩ :=
      query_recomputed described alike sound key made opened
    obtain ⟨mid, ends, kept⟩ := ih (fun q member => valid q (List.mem_cons_of_mem _ member)) after
      alike' sound'
    exact ⟨mid, .bind ⟨fuel, (Act.run_request _ _ _).trans answered⟩ ends, kept⟩

/-- Starting with nothing remembered, any queries may come first. What the codes answer belongs to a
    class that they keep to, for instance that of the answers which hold only values that exist. -/
theorem memoized_answer_recomputed {w : World H} {e : EnvironmentId} {G : Payload H → Prop}
    (effectless : Effectless B w e G) (earlier : List (Value × KeyId × CallStack))
    (valid : ∀ q ∈ earlier, w.Made q.1 ∧ q.2.2.Open) (v : Value) (key : KeyId) (s : CallStack)
    (made : w.Made v) (opened : s.Open) :
    ∃ mid, (askAll e earlier).Ends B w.forget () mid ∧
      ∃ answer after, (Request.resolve v key ⟨e, s⟩).Ends B mid answer after ∧
        ∃ fuel, recompute B fuel (.resolve v key ⟨e, s⟩) w.forget = some (answer, w.forget) := by
  obtain ⟨d, described⟩ := exists_description effectless
  have fresh : Sound d w.forget := by
    intro u k answer memo
    rw [World.remembered_forget] at memo
    cases memo
  obtain ⟨mid, ends, alike, sound⟩ :=
    askAll_sound described earlier valid w.forget (World.forget_forget w) fresh
  obtain ⟨answer, after, answered, -, -, recomputed⟩ :=
    query_recomputed described alike sound key made opened
  exact ⟨mid, ends, answer, after, answered, recomputed⟩

def leadingText (v : Value) (ctx : Context) : Program Host.unit (Option Text) := do
  match ← v.answer? Key.list ctx with
  | none => v.answer? Key.text ctx
  | some ⟨[]⟩ => return none
  | some ⟨item :: _⟩ => item.answer? Key.text ctx

/-- Such a text is a name, and a name is a text. -/
def roundabout : Behaviour Host.unit :=
  { inert with
    infer := fun
      | .name, _ => ⟨Text, ⟨leadingText⟩, fun t _ => return ⟨t.text⟩⟩
      | .text, _ => .direct Key.name fun n => ⟨n.name, none⟩
      | _, _ => ⟨Unit, ⟨fun _ _ => return none⟩, fun _ _ => throw (.of (.custom ""))⟩ }

def roundaboutWorld : World Host.unit :=
  { World.initial () with
    cells := #[⟨.bare none, []⟩, ⟨.single Key.text ⟨"t", none⟩ none, []⟩,
      ⟨.single Key.list ⟨[⟨1⟩]⟩ none, []⟩]
    environments := #[{ rules := [.own .name Key.name (), .own .text Key.text ()] }] }

/-- If the answer is a list, then its items have been made. -/
def ListsMade (p : Payload Host.unit) : Prop :=
  ∀ l, p.as? .list = some l → ∀ item ∈ l.items, roundaboutWorld.Made item

theorem roundabout_effectless : Effectless roundabout roundaboutWorld ⟨0⟩ ListsMade where
  instances v made i member := by
    obtain ⟨_ | _ | _ | id⟩ := v
    · simp [roundaboutWorld, World.node, Node.bare] at member
    · obtain rfl := List.mem_singleton.mp member
      exact inquires_pure fun _ same => by cases same
    · obtain rfl := List.mem_singleton.mp member
      refine inquires_pure fun l same item inside => ?_
      cases same
      obtain rfl := List.mem_singleton.mp inside
      decide
    · have bound : id + 3 < 3 := made
      omega
  rules rule member v made := by
    rcases List.mem_cons.mp member with rfl | member
    · have text : ∀ u, ∃ q : Query Host.unit KeyId (Option Text), (roundaboutWorld.Made u →
          q.Over roundaboutWorld ListsMade fun _ => True) ∧
            ∀ ctx, u.answer? Key.text ctx = q.program id ctx := by
        intro u
        refine ⟨.askFor .text u Key.text.id .done, fun here =>
          Query.over_askFor here ?_, fun ctx => ?_⟩
        · exact fun _ _ => trivial
        · rw [Query.program_askFor]
          exact (bind_pure _).symm
      have leads : Inquires roundaboutWorld ListsMade (fun _ => True) (leadingText v) := by
        refine (inquires_answer? made Key.list).bind fun found => ?_
        rcases found with _ | ⟨_ | ⟨item, rest⟩⟩
        · obtain ⟨q, covered, asks⟩ := text v
          exact ⟨q, fun _ => covered made, asks⟩
        · exact ⟨.done none, fun _ => trivial, fun _ => rfl⟩
        · obtain ⟨q, covered, asks⟩ := text item
          refine ⟨q, fun held => covered ?_, asks⟩
          exact held _ rfl ⟨item :: rest⟩ (Payload.as?_self _ _) item (List.mem_cons_self ..)
      refine leads.bind fun found => ?_
      cases found with
      | none => exact ⟨.done none, fun _ _ same => (by cases same), fun _ => rfl⟩
      | some t =>
        refine ⟨.done (some ⟨.name, ⟨t.text⟩⟩), fun _ p same => ?_, fun _ => rfl⟩
        cases same
        exact fun _ same => by cases same
    · obtain rfl := List.mem_singleton.mp member
      exact inquires_direct made Key.name fun _ _ _ same => by cases same

/-- The bare value has a cycle, after the list was asked and after a failure. -/
theorem roundabout_recomputed :
    Effectless roundabout roundaboutWorld ⟨0⟩ ListsMade ∧
      ∃ mid, (askAll ⟨0⟩ [(⟨2⟩, Key.text.id, .fresh), (⟨0⟩, Key.name.id, .fresh)]).Ends roundabout
          roundaboutWorld.forget () mid ∧
        ∃ answer after,
          (Request.resolve ⟨0⟩ Key.text.id ⟨⟨0⟩, .fresh⟩).Ends roundabout mid answer after ∧
          ∃ fuel, recompute roundabout fuel (.resolve ⟨0⟩ Key.text.id ⟨⟨0⟩, .fresh⟩)
            roundaboutWorld.forget = some (answer, roundaboutWorld.forget) := by
  have opened : CallStack.fresh.Open := ⟨rfl, rfl⟩
  refine ⟨roundabout_effectless, memoized_answer_recomputed roundabout_effectless _ ?_ ⟨0⟩
    Key.text.id .fresh ?_ opened⟩
  · simp [World.Made, roundaboutWorld, opened]
  · simp [World.Made, roundaboutWorld]

end TraitDispatch
