import TraitDispatch.Proofs.Nesting

/- How asking a value ends under a limit: with what the standard rules say, or for want of room. Two
   entries are always enough, and for what the value has an instance for one is. -/
namespace TraitDispatch
variable {H : Host} {α β : Type} {B : Behaviour H} {w after : World H} {k : Kind} {v : Value}
  {t : Term} {key : KeyId} {fuel : Nat} {enough cut : Prop}

def Node.Simple (n : Node H) (key : KeyId) : Prop :=
  n.find? key ≠ none ∨ StandardRule.forKey key = []

theorem World.LearnsAnswers.standard {e : EnvironmentId} (learns : w.LearnsAnswers cut after)
    (standard : w.Standard e) : after.Standard e := by
  rw [World.Standard, learns.environment]
  exact standard

/-- A later world where the answer to the key is known, if a rule gives it, and no other that rules
    give has become so. -/
structure World.Consults (w : World H) (v : Value) (key : KeyId) (after : World H) : Prop where
  learns : ∀ cut, w.LearnsAnswers cut after
  derived : ∀ u other, other.Regular → after.derived u other =
    if u = v ∧ other.index = key.index ∧ (w.node v).find? key = none then (w.node v).standard? key
    else w.derived u other

inductive Finds (s : CallStack) (w : World H) (expected : α) :
    Except Failure α → World H → Prop where
  | found {after : World H} (recollects : ∀ cut, w.LearnsRenderings cut after) :
      Finds s w expected (.ok expected) after
  | exhausted {failure : Failure} {after : World H} {limit : Nat}
      (recollects : ∀ cut, w.LearnsRenderings cut after) (spent : failure.cause = .depthLimit limit)
      (cramped : ¬ s.Room 1) : Finds s w expected (.error failure) after

/-- How asking ends. If it fails for want of room nothing was known, and if it succeeds without the
    answer being known there was room for an entry. -/
inductive Asked (s : CallStack) (w : World H) (v : Value) (key : KeyId) (expected : α) :
    Except Failure α → World H → Prop where
  | answered {after : World H} (consults : w.Consults v key after)
      (free : w.remembered v key = none → s.Room 1) : Asked s w v key expected (.ok expected) after
  | exhausted {failure : Failure} {after : World H} {limit : Nat}
      (recollects : ∀ cut, w.LearnsRenderings cut after) (spent : failure.cause = .depthLimit limit)
      (unknown : w.remembered v key = none) (cramped : ¬ s.Room 2)
      (simple : (w.node v).Simple key → ¬ s.Room 1) :
      Asked s w v key expected (.error failure) after

theorem World.remembered_congr (w : World H) (v : Value) {other : KeyId}
    (same : other.index = key.index) : w.remembered v other = w.remembered v key := by
  simp only [World.remembered, same]

theorem World.derived_of_find? (w : World H) {other : KeyId} (same : other.index = key.index)
    (bare : (w.node v).find? key = none) : w.derived v other = w.remembered v key := by
  rw [World.derived, Node.find?_congr _ same, bare]
  exact w.remembered_congr v same

theorem World.Consults.known (settled : w.Settled v) (regular : key.Regular) {answer : Payload H}
    (memo : w.remembered v key = some answer) : w.Consults v key w := by
  refine ⟨fun _ => .same w, fun u other _ => ?_⟩
  split
  · rename_i here
    obtain ⟨rfl, index, bare⟩ := here
    rw [w.derived_of_find? index bare, memo, settled.recalls key regular answer memo]
  · rfl

theorem World.Consults.absent (memo : w.remembered v key = none)
    (nothing : (w.node v).standard? key = none) (recollects : ∀ cut, w.LearnsRenderings cut after) :
    w.Consults v key after := by
  refine ⟨fun cut => (recollects cut).toLearnsAnswers, fun u other regular => ?_⟩
  rw [(recollects True).derived u other regular]
  split
  · rename_i here
    obtain ⟨rfl, index, bare⟩ := here
    rw [w.derived_of_find? index bare, memo, nothing]
  · rfl

theorem World.Consults.settle {mid : World H} {answer : Payload H} (made : w.Made v)
    (regular : key.Regular) (standard : (w.node v).standard? key = some answer)
    (recollects : ∀ cut, w.LearnsRenderings cut mid) :
    w.Consults v key (mid.remember v key answer) := by
  have still : mid.Made v := by
    rw [World.Made, (recollects True).cells]
    exact made
  have right : (mid.node v).standard? key = some answer := by
    rw [(recollects True).node, standard]
  refine ⟨fun cut => (recollects cut).toLearnsAnswers.trans (.remember (fun _ => right)
    fun text => absurd text regular.1), fun u other regular' => ?_⟩
  rw [World.derived_remember still, (recollects True).node,
    (recollects True).derived u other regular']
  by_cases here : u = v ∧ other.index = key.index
  · obtain ⟨rfl, index⟩ := here
    cases own : (w.node u).find? key with
    | none => simp [index, standard]
    | some i =>
      have shadowed : w.derived u other = none := by
        rw [World.derived, Node.find?_congr _ index, own]
      simp [index, shadowed]
  · rw [if_neg here, if_neg fun holds => here ⟨holds.1, holds.2.1⟩]

theorem Node.Simple.underived {n : Node H} (simple : n.Simple key) (bare : n.find? key = none) :
    n.standard? key = none := by
  have base := simple.resolve_left fun own => own bare
  simp [Node.standard?, Node.own?, bare, base]

theorem World.Consults.learnsRenderings (consults : w.Consults v key after) (settled : w.Settled v)
    (underived : (w.node v).find? key = none → (w.node v).standard? key = none) (cut : Prop) :
    w.LearnsRenderings cut after := by
  refine ⟨consults.learns cut, fun u other regular => ?_⟩
  rw [consults.derived u other regular]
  split
  · rename_i here
    obtain ⟨rfl, index, bare⟩ := here
    have nothing := underived bare
    rw [nothing, w.derived_of_find? index bare]
    cases memo : w.remembered u key with
    | none => rfl
    | some answer =>
      rw [← w.remembered_congr u index] at memo
      have said := settled.recalls other regular answer memo
      rw [Node.standard?_congr _ index, nothing] at said
      cases said
  · rfl

theorem Asked.finds {s : CallStack} {expected : α} {r : Except Failure α}
    (asked : Asked s w v key expected r after) (settled : w.Settled v)
    (simple : (w.node v).Simple key) : Finds s w expected r after := by
  cases asked with
  | answered consults free => exact .found (consults.learnsRenderings settled simple.underived)
  | exhausted recollects spent _ _ cramped => exact .exhausted recollects spent (cramped simple)

theorem Finds.bind {s : CallStack} {m : Program H α} {f : α → Program H β} {x : α} {y : β}
    (first : m.EndsIf B fuel enough w (Finds s w x))
    (rest : ∀ mid, (∀ cut, w.LearnsRenderings cut mid) →
      (f x).EndsIf B fuel enough mid (Finds s mid y)) :
    (m >>= f).EndsIf B fuel enough w (Finds s w y) := by
  refine first.bind (fun a mid found => ?_) fun failure mid found => ?_
  · cases found with
    | found recollects =>
      refine (rest mid recollects).weaken id fun r after found => ?_
      cases found with
      | found later => exact .found fun cut => (recollects cut).trans (later cut)
      | exhausted later spent cramped =>
        exact .exhausted (fun cut => (recollects cut).trans (later cut)) spent cramped
  · cases found with
    | exhausted recollects spent cramped => exact .exhausted recollects spent cramped

theorem Finds.done {s : CallStack} (x : α) :
    (pure x : Program H α).EndsIf B fuel enough w (Finds s w x) :=
  .done (.found fun _ => .same w)

section Answering
variable {ctx : Context}

theorem asked_answer? {key : Key k} (bears : w.Bears cut v t) (regular : key.Regular)
    (resolved : (Program.resolve v key.id ctx).EndsIf B fuel enough w
      (Asked ctx.stack w v key.id ((w.node v).standard? key.id))) :
    (v.answer? key ctx).EndsIf B fuel enough w
      (Asked ctx.stack w v key.id ((w.node v).answer? key)) := by
  refine resolved.bind (fun a after asked => ?_) fun failure after asked => ?_
  · rw [Node.answer?]
    cases asked with
    | answered consults free =>
      cases expected : (w.node v).standard? key.id with
      | none => exact .done (.answered consults free)
      | some p =>
        obtain ⟨j, content⟩ := p
        have typed := standard?_typed bears.settled.fixed regular expected
        cases typed
        simp only [Payload.as?_self, Option.bind_some]
        exact .done (.answered consults free)
  · cases asked with
    | exhausted recollects spent unknown cramped simple =>
      exact .exhausted recollects spent unknown cramped simple

theorem ask_endsIf (bears : w.Bears cut v t) (regular : key.Regular)
    (idle : ⟨v, key.index⟩ ∉ ctx.stack.active) (fuelled : enough → 0 < fuel)
    (derives : ∀ inner less, ctx.stack.Room 1 → ctx.stack.Below inner →
      inner.active = ⟨v, key.index⟩ :: ctx.stack.active → fuel = less + 1 →
      (deriveAnswer B w v key (ctx.withStack inner)).EndsIf B less enough w fun r mid =>
        (r = .ok ((w.node v).standard? key) ∧ ∀ cut, w.LearnsRenderings cut mid) ∨
        ∃ failure limit, r = .error failure ∧ failure.cause = .depthLimit limit ∧
          (∀ cut, w.LearnsRenderings cut mid) ∧ ¬ inner.Room 1 ∧ ¬ (w.node v).Simple key) :
    (Program.resolve v key ctx).EndsIf B fuel enough w
      (Asked ctx.stack w v key ((w.node v).standard? key)) := by
  have settled := bears.settled
  refine resolve_endsIf fuelled (fun answer memo => ?_) (fun failure unknown refused => ?_)
    fun inner less unknown entered spends => ?_
  · rw [settled.recalls key regular answer memo]
    refine .answered (.known settled regular memo) fun absent => ?_
    rw [memo] at absent
    cases absent
  · obtain ⟨cramped, limit, spent⟩ := CallStack.refused idle refused
    exact .exhausted (fun _ => .same w) spent unknown (fun room => cramped (room.fewer (by omega)))
      fun _ => cramped
  · obtain ⟨room, below, listed⟩ := CallStack.admitted entered
    refine (derives inner less room below listed spends).weaken id fun r mid found => ?_
    rcases found with ⟨rfl, recollects⟩ | ⟨failure, limit, rfl, spent, recollects, cramped, other⟩
    · generalize expected : (w.node v).standard? key = answer
      cases answer with
      | none => exact .answered (.absent unknown expected recollects) fun _ => room
      | some answer =>
        exact .answered (.settle settled.made regular expected recollects) fun _ => room
    · exact .exhausted recollects spent unknown (fun more => cramped (below.room_iff.mpr more))
        fun simple => absurd simple other

theorem simple_endsIf (bears : w.Bears cut v t) (standard : w.Standard ctx.environment)
    (regular : key.Regular) (simple : (w.node v).Simple key)
    (idle : ⟨v, key.index⟩ ∉ ctx.stack.active) (fuelled : enough → 0 < fuel) :
    (Program.resolve v key ctx).EndsIf B fuel enough w
      (Asked ctx.stack w v key ((w.node v).standard? key)) := by
  refine ask_endsIf bears regular idle fuelled fun inner less _ _ _ _ => ?_
  cases own : (w.node v).own? key with
  | some answer =>
    have said : (w.node v).standard? key = some answer := by
      rw [Node.standard?, own, Option.some_or]
    rw [deriveAnswer_own own, said]
    exact .done (.inl ⟨rfl, fun _ => .same w⟩)
  | none =>
    have lacks := Node.lacks_of_own bears.settled.fixed own
    have base := simple.resolve_left fun own' => own' lacks
    rw [deriveAnswer_ruled lacks (ctx.withStack inner) standard, base, simple.underived lacks]
    exact .done (.inl ⟨rfl, fun _ => .same w⟩)

theorem form_finds {key : Key k} (bears : w.Bears cut v t) (standard : w.Standard ctx.environment)
    (regular : key.Regular) (base : StandardRule.forKey key.id = [])
    (idle : ⟨v, key.id.index⟩ ∉ ctx.stack.active) (fuelled : enough → 0 < fuel) :
    (v.answer? key ctx).EndsIf B fuel enough w (Finds ctx.stack w ((w.node v).form? key)) := by
  have simple : (w.node v).Simple key.id := .inr base
  have asked := asked_answer? bears regular
    (simple_endsIf (B := B) bears standard regular.id simple idle fuelled)
  have same : (w.node v).answer? key = (w.node v).form? key := by
    rw [Node.answer?, Node.standard?, base, List.findSome?_nil, Option.or_none, Node.form?]
  rw [same] at asked
  exact asked.weaken id fun r after asked => asked.finds bears.settled simple

theorem direct_finds {j : Kind} {key : Key j} {f : j.Carrier H → k.Carrier H}
    {source : Option (j.Carrier H)}
    (asked : (v.answer? key ctx).EndsIf B fuel enough w (Finds ctx.stack w source)) :
    ((Inference.direct key f).apply v ctx).EndsIf B fuel enough w
      (Finds ctx.stack w (source.map fun x => ⟨k, f x⟩)) := by
  refine Finds.bind asked fun mid _ => ?_
  cases source with
  | none => exact Finds.done none
  | some x => exact Finds.done _

theorem directAt_finds {j : Kind} {key : Key j}
    {f : j.Carrier H → Option Location → k.Carrier H} {source : Option (j.Carrier H)}
    (asked : (v.answer? key ctx).EndsIf B fuel enough w (Finds ctx.stack w source)) :
    ((Inference.directAt key f).apply v ctx).EndsIf B fuel enough w
      (Finds ctx.stack w (source.map fun x => ⟨k, f x (w.node v).location⟩)) := by
  have checked : ((Validation.conformsAt key).check v ctx).EndsIf B fuel enough w
      (Finds ctx.stack w (source.map fun x => (x, (w.node v).location))) := by
    refine Finds.bind asked fun mid recollects => ?_
    cases source with
    | none => exact Finds.done none
    | some x =>
      refine (Program.EndsIf.location v).bind (fun l after here => ?_) fun failure after here => ?_
      · obtain ⟨same, rfl⟩ := here
        cases same
        rw [(recollects True).node]
        exact Finds.done _
      · cases here.1
  refine Finds.bind checked fun mid _ => ?_
  cases source with
  | none => exact Finds.done none
  | some x => exact Finds.done _

theorem rule_finds {rule : StandardRule} (bears : w.Bears cut v t)
    (standard : w.Standard ctx.environment) (other : rule.kind ≠ .text)
    (idle : ∀ j, j ≠ rule.key.id.index → j ≠ Key.text.id.index → ⟨v, j⟩ ∉ ctx.stack.active)
    (fuelled : enough → 0 < fuel) :
    (rule.inference.apply v ctx).EndsIf B fuel enough w
      (Finds ctx.stack w (rule.reads (w.node v))) := by
  have based : ∀ {j : Kind} {key : Key j}, key.Regular → StandardRule.forKey key.id = [] →
      key.id.index ≠ rule.key.id.index →
      (v.answer? key ctx).EndsIf B fuel enough w (Finds ctx.stack w ((w.node v).form? key)) :=
    fun regular base apart => form_finds bears standard regular base (idle _ apart regular.other)
      fuelled
  cases rule with
  | blockEvaluate | listEvaluate | nameEvaluate | nameAssign | quotedEvaluate
  | definitionFunction => exact direct_finds (based ⟨rfl, by decide⟩ rfl (by decide))
  | blockExpand | listExpand | nameExpand | quotedExpand =>
    exact directAt_finds (based ⟨rfl, by decide⟩ rfl (by decide))
  | _ => exact absurd rfl other

theorem rules_find {n : Node H} {s : CallStack} (rules : List StandardRule)
    (each : ∀ rule ∈ rules, ∀ mid, (∀ cut, w.LearnsRenderings cut mid) →
      (rule.inference.apply v ctx).EndsIf B fuel enough mid (Finds s mid (rule.reads n))) :
    (applyFirst B v ctx (rules.map .standard)).EndsIf B fuel enough w
      (Finds s w (rules.findSome? (·.reads n))) := by
  induction rules generalizing w with
  | nil => exact Finds.done none
  | cons rule rest ih =>
    have first := each rule (List.mem_cons_self ..) w fun _ => .same w
    refine Finds.bind first fun mid recollects => ?_
    rw [List.findSome?_cons]
    cases rule.reads n with
    | some answer => exact Finds.done _
    | none =>
      exact ih fun other member later grown => each other (List.mem_cons_of_mem _ member) later
        fun cut => (recollects cut).trans (grown cut)

/-- Asking for any regular key, while only renderings are in progress. -/
theorem regular_endsIf (bears : w.Bears cut v t) (standard : w.Standard ctx.environment)
    (regular : key.Regular) (calm : ctx.stack.Calm)
    (fuelled : enough → ctx.stack.Brief fuel ∨ 2 ≤ fuel) :
    (Program.resolve v key ctx).EndsIf B fuel enough w
      (Asked ctx.stack w v key ((w.node v).standard? key)) := by
  have idle := calm.idle (v := v) regular
  have fuelled' : enough → 0 < fuel := fun plenty => CallStack.fuel_pos (fuelled plenty)
  by_cases simple : (w.node v).Simple key
  · exact simple_endsIf bears standard regular simple idle fuelled'
  -- Otherwise the value is searched, and no rule for a regular key but its own is tried.
  refine ask_endsIf bears regular idle fuelled' fun inner less room below listed spends => ?_
  subst spends
  have less_fuelled : enough → 0 < less := fun plenty => by
    rcases fuelled plenty with brief | two
    · exact (brief.below below room).pos
    · omega
  have bare : (w.node v).find? key = none := by
    by_contra own
    exact simple (.inl own)
  have said : (w.node v).standard? key =
      (StandardRule.forKey key).findSome? (·.reads (w.node v)) := by
    simp [Node.standard?, Node.own?, bare]
  have search : (deriveAnswer B w v key (ctx.withStack inner)).EndsIf B less enough w
      (Finds inner w ((w.node v).standard? key)) := by
    rw [deriveAnswer_ruled bare (ctx.withStack inner) standard, said]
    refine rules_find _ fun rule member mid recollects => ?_
    have same : rule.key.id.index = key.index :=
      KeyId.beq_iff_index_eq.mp (List.mem_filter.mp member).2
    have other : rule.kind ≠ .text := fun text => regular.1 (same ▸ rule.text_of_kind text)
    have idle' : ∀ j, j ≠ rule.key.id.index → j ≠ Key.text.id.index → ⟨v, j⟩ ∉ inner.active := by
      intro j apart rest busy
      rw [listed] at busy
      rcases List.mem_cons.mp busy with here | above
      · cases here
        exact apart same.symm
      · exact rest (calm _ above)
    rw [← (recollects True).node v]
    exact rule_finds ((recollects cut).bears v t bears) ((recollects True).standard standard) other
      idle' less_fuelled
  refine search.weaken id fun r mid found => ?_
  cases found with
  | found recollects => exact .inl ⟨rfl, recollects⟩
  | exhausted recollects spent cramped =>
    exact .inr ⟨_, _, rfl, spent, recollects, cramped, simple⟩

end Answering
end TraitDispatch
