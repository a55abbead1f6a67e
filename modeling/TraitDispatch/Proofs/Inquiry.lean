import TraitDispatch.Proofs.Conduct
import TraitDispatch.Proofs.Placeholders

/- Asking and rendering under the contract. A derivation asks the value for a form that no rule
   gives, or else for whether it is a function, and a rendering asks its parts for theirs. Every
   part is less deep than the whole, so nothing is asked for that is in progress. -/
namespace TraitDispatch
variable {H : Host} {α β : Type} {g : Setting H} {w mid after : World H} {v : Value} {t : Term}
  {key : KeyId} {k : Kind} {ctx : Context} {still : Prop} {fair : Failure → Prop}

namespace CallStack.Permits
variable {s inner : CallStack}

theorem grown {e : EnvironmentId} (permits : s.Permits w v t key)
    (moves : w.KeepsBearings e after) :
    s.Permits after v t key where
  standard := permits.standard
  idle := permits.idle
  calm := permits.calm
  deeper text p member := by
    obtain ⟨u, bears, deeper⟩ := permits.deeper text p member
    exact ⟨u, moves.bears _ _ bears, deeper⟩

theorem regular (calm : s.Calm) (regular : key.Regular) : s.Permits w v t key :=
  ⟨.inl regular, calm.idle regular, fun _ => calm, fun text => absurd (congrArg _ text) regular.1⟩

theorem rendering (bears : w.Bears True v t) (calm : s.Calm)
    (deeper : ∀ p ∈ s.active, ∃ u, w.Bears True p.value u ∧ t.depth < u.depth) :
    s.Permits w v t Key.text.id := by
  refine ⟨.inr rfl, fun busy => ?_, fun _ => calm, fun _ => deeper⟩
  obtain ⟨u, other, less⟩ := deeper _ busy
  obtain rfl := bears.unique other
  omega

theorem calm_of_rule {rule : StandardRule} (permits : s.Permits w v t key)
    (member : rule ∈ StandardRule.forKey key) : s.Calm :=
  permits.calm (List.ne_nil_of_mem member)

theorem source {rule : StandardRule} (permits : s.Permits w v t key)
    (member : rule ∈ StandardRule.forKey key)
    (listed : inner.active = ⟨v, key.index⟩ :: s.active) :
    inner.Permits w v t rule.source.id := by
  have calm := permits.calm_of_rule member
  have index : rule.key.id.index = key.index :=
    KeyId.beq_iff_index_eq.mp (List.mem_filter.mp member).2
  have regular := rule.source_regular.id
  refine ⟨.inl regular, fun busy => ?_, fun ruled => ?_,
    fun text => absurd (congrArg _ text) regular.1⟩
  · rw [listed] at busy
    rcases List.mem_cons.mp busy with here | above
    · have same : rule.source.id.index = rule.key.id.index := by
        rw [index]
        exact congrArg Derivation.key here
      cases rule <;> cases same
    · exact calm.idle regular above
  · cases rule with
    | functionText =>
      refine calm.rendering (v := v) ?_
      rw [listed, ← index]
      rfl
    | _ => exact absurd rfl ruled

theorem deeper_part {u : Term} (permits : s.Permits w v t Key.text.id) (bears : w.Bears True v t)
    (listed : inner.active = ⟨v, Key.text.id.index⟩ :: s.active) (less : u.depth < t.depth) :
    ∀ p ∈ inner.active, ∃ other, w.Bears True p.value other ∧ u.depth < other.depth := by
  intro p member
  rw [listed] at member
  rcases List.mem_cons.mp member with rfl | there
  · exact ⟨t, bears, less⟩
  · obtain ⟨other, bears', deeper⟩ := permits.deeper rfl p there
    exact ⟨other, bears', by omega⟩

end CallStack.Permits

theorem Context.Placed.standard (placed : ctx.Placed g)
    (fences : w.Fences g.named g.environment) : w.Standard ctx.environment := by
  rw [placed.environment]
  exact fences.standard

theorem KeyId.Regular.typed {n : Node H} {p : Payload H} (regular : key.Regular)
    (fixed : ∀ i ∈ n.instances, i.Fixed) (found : n.standard? key = some p) :
    standardKinds[key.index]? = some p.kind := by
  obtain ⟨k, declared⟩ : ∃ k, standardKinds[key.index]? = some k :=
    ⟨_, List.getElem?_eq_getElem regular.2⟩
  have typed : (⟨key⟩ : Key k).Regular := ⟨declared, regular.1⟩
  rw [declared, standard?_typed fixed typed found]

theorem ended_learnsAnswers {r : Except Failure (Option (Payload H))} {B : Behaviour H}
    (standard : w.Standard ctx.environment) (bears : w.Bears True v t)
    (permits : ctx.stack.Permits w v t key)
    (ended : (Request.resolve v key ctx).Ends B w r after) :
    w.LearnsAnswers True after ∧ (key.Regular → ∀ a, r = .ok a → a = (w.node v).standard? key) ∧
      ∀ p, r = .ok (some p) → standardKinds[key.index]? = some p.kind := by
  obtain ⟨fuel, answered⟩ := ended
  have ran : (Program.resolve v key ctx).perform (respond B fuel) w = some (r, after) :=
    (Act.run_request _ _ _).trans answered
  rcases permits.standard with regular | rfl
  · have runs : (Program.resolve v key ctx).EndsIf B fuel False w
        (Asked ctx.stack w v key ((w.node v).standard? key)) := by
      by_cases simple : (w.node v).Simple key
      · exact simple_endsIf bears standard regular simple permits.idle False.elim
      · exact regular_endsIf bears standard regular
          (permits.calm fun none => simple (.inr none)) False.elim
    cases runs.finds r after ran with
    | answered consults _ =>
      exact ⟨consults.learns True, fun _ a same => by cases same; rfl, fun p same =>
        regular.typed bears.settled.fixed (Except.ok.inj same)⟩
    | exhausted recollects => exact ⟨(recollects True).toLearnsAnswers, fun _ => nofun, nofun⟩
  · have calm := permits.calm (List.ne_nil_of_mem (a := .blockText) (by decide))
    have runs : (Program.resolve v Key.text.id ctx).EndsIf B fuel _ w (Searched True True w t) :=
      resolve_text_endsIf bears standard calm (.inl trivial) (.inl trivial)
        fun less _ => format_endsIf less
    have other : ¬ Key.text.id.Regular := fun regular => regular.1 rfl
    cases runs.finds r after ran with
    | found recollects =>
      exact ⟨recollects.toLearnsAnswers, fun regular => absurd regular other, fun p same => by
        cases same
        rfl⟩
    | nothing recollects =>
      exact ⟨recollects.toLearnsAnswers, fun regular => absurd regular other, nofun⟩
    | failed recollects =>
      exact ⟨recollects.toLearnsAnswers, fun regular => absurd regular other, nofun⟩

section Asking
variable (fences : w.Fences g.named g.environment) (placed : ctx.Placed g)
  (bears : w.Bears True v t)
include fences placed bears

theorem resolve_satisfies (permits : ctx.stack.Permits w v t key) :
    (Program.resolve v key ctx).Satisfies g.contract w (Resolved w v key ctx.stack) :=
  Act.Satisfies.request (.resolve fences placed bears permits) fun _ _ resolved => resolved

theorem answer?_endsFairly {key : Key k} (regular : key.Regular)
    (permits : ctx.stack.Permits w v t key.id) :
    (v.answer? key ctx).EndsFairly g still ctx.stack fair w fun a after =>
      w.LearnsAnswers True after ∧ a = (w.node v).answer? key := by
  refine Program.Satisfies.bind (resolve_satisfies fences placed bears permits)
    (fun a mid resolved => ?_) fun f mid resolved => ?_
  · have proceeds := (World.Proceeds.learnt fences resolved.learns : w.Proceeds _ _ still mid)
    have said := resolved.said regular.id a rfl
    have finds : ∀ a' : Option (k.Carrier H), (pure a' : Program H _).Satisfies g.contract mid
        (Outcome g still ctx.stack fair w fun a after => w.LearnsAnswers True after ∧ a = a') := by
      refine fun a' => Program.Satisfies.done ⟨proceeds, fun f same => ?_, fun b same => ?_⟩
      · cases same
      · cases same
        exact ⟨resolved.learns, rfl⟩
    rw [Node.answer?, ← said]
    cases a with
    | none => exact finds none
    | some payload =>
      obtain ⟨j, content⟩ := payload
      obtain rfl := standard?_typed bears.settled.fixed regular said.symm
      simp only [Payload.as?_self, Option.bind_some]
      exact finds (some content)
  · obtain ⟨traces, spent⟩ := resolved.fails f rfl
    refine ⟨.learnt fences resolved.learns, fun f' same => ?_, fun b same => ?_⟩
    · cases same
      exact ⟨traces, .inl spent⟩
    · cases same

theorem format_satisfies (calm : ctx.stack.Calm)
    (deeper : ∀ p ∈ ctx.stack.active, ∃ u, w.Bears True p.value u ∧ t.depth < u.depth) :
    (v.format ctx).Satisfies g.contract w fun _ after => w.LearnsAnswers True after := by
  have permits : ctx.withoutRecording.stack.Permits w v t Key.text.id :=
    .rendering bears calm deeper
  have placed' : ctx.withoutRecording.Placed g := 
    ⟨placed.environment, placed.limit, placed.sound.quiet⟩
  have asked : (v.answer? Key.text ctx.withoutRecording).Satisfies g.contract w
      fun _ after => w.LearnsAnswers True after := by
    refine Program.Satisfies.bind (resolve_satisfies fences placed' bears permits)
      (fun a mid resolved => ?_) fun f mid resolved => resolved.learns
    cases a with
    | none => exact resolved.learns
    | some payload =>
      dsimp only
      cases payload.as? .text <;> exact resolved.learns
  refine Act.Satisfies.bind asked fun r mid learns => ?_
  rcases r with _ | _ | _ <;> exact learns

end Asking

theorem Context.Ready.deeper (ready : ctx.Ready g) (t : Term) :
    ∀ p ∈ ctx.stack.active, ∃ u, w.Bears True p.value u ∧ t.depth < u.depth := by
  rw [ready.idle]
  exact List.forall_mem_nil _

theorem Context.Ready.calm (ready : ctx.Ready g) : ctx.stack.Calm := by
  rw [CallStack.Calm, ready.idle]
  exact List.forall_mem_nil _

section Deriving
variable (placed : ctx.Placed g)
include placed

theorem format_all_satisfies {items : List Value} {ts : List Term} (calm : ctx.stack.Calm)
    (fences : w.Fences g.named g.environment) (even : items.length = ts.length)
    (each : ∀ p ∈ items.zip ts, w.Bears True p.1 p.2 ∧
      ∀ q ∈ ctx.stack.active, ∃ u, w.Bears True q.value u ∧ p.2.depth < u.depth) :
    (items.mapM fun item : Value => item.format ctx).Satisfies g.contract w fun _ after =>
      w.LearnsAnswers True after := by
  induction items generalizing ts w with
  | nil => exact Act.Satisfies.done (.same w)
  | cons item rest ih =>
    cases ts with
    | nil => cases even
    | cons t ts =>
      rw [List.zip_cons_cons, List.forall_mem_cons] at each
      obtain ⟨⟨bears, deeper⟩, others⟩ := each
      rw [List.mapM_cons]
      refine (format_satisfies fences placed bears calm deeper).bind fun text mid learns => ?_
      have fences' := fences.learnt learns
      refine (ih fences' (Nat.succ.inj even) fun p member => ?_).bind
        fun texts after later => Act.Satisfies.done (learns.trans later)
      obtain ⟨bears', deeper'⟩ := others p member
      refine ⟨learns.bears _ _ bears', fun q busy => ?_⟩
      obtain ⟨u, other, less⟩ := deeper' q busy
      exact ⟨u, learns.bears _ _ other, less⟩

theorem direct_endsFairly {j : Kind} {key : Key j} {f : j.Carrier H → k.Carrier H}
    (fences : w.Fences g.named g.environment) (bears : w.Bears True v t) (regular : key.Regular)
    (permits : ctx.stack.Permits w v t key.id) :
    ((Inference.direct key f).apply v ctx).EndsFairly g still ctx.stack fair w fun _ _ => True := by
  refine (answer?_endsFairly fences placed bears regular permits).bind fun a mid proceeds _ => ?_
  cases a with
  | none => exact .done proceeds.fences trivial
  | some source => exact .done proceeds.fences trivial

theorem directAt_endsFairly {j : Kind} {key : Key j}
    {f : j.Carrier H → Option Location → k.Carrier H}
    (fences : w.Fences g.named g.environment) (bears : w.Bears True v t) (regular : key.Regular)
    (permits : ctx.stack.Permits w v t key.id) :
    ((Inference.directAt key f).apply v ctx).EndsFairly g still ctx.stack fair
      w fun _ _ => True := by
  have checked : ((Validation.conformsAt key : Validation H _).check v ctx).EndsFairly g still
      ctx.stack fair w fun _ _ => True := by
    refine (answer?_endsFairly fences placed bears regular permits).bind fun a mid proceeds _ => ?_
    cases a with
    | none => exact .done proceeds.fences trivial
    | some source =>
      exact (Program.EndsFairly.location v proceeds.fences).bind
        fun l after later _ => .done later.fences trivial
  refine checked.bind fun a mid proceeds _ => ?_
  cases a with
  | none => exact .done proceeds.fences trivial
  | some source => exact .done proceeds.fences trivial

theorem composed_endsFairly {key : Key k} {m : k.Carrier H → Context → Act H String}
    (fences : w.Fences g.named g.environment) (bears : w.Bears True v t) (regular : key.Regular)
    (permits : ctx.stack.Permits w v t key.id)
    (shown : ∀ x mid, w.LearnsAnswers True mid → (w.node v).answer? key = some x →
      (m x ctx).Satisfies g.contract mid fun _ after => mid.LearnsAnswers True after) :
    ((⟨_, .conforms key, fun x ctx => do return ⟨← (m x ctx).lift, none⟩⟩ :
      Inference H .text).apply v ctx).EndsFairly g still ctx.stack fair w fun _ _ => True := by
  refine (answer?_endsFairly fences placed bears regular permits).bind
    fun a mid proceeds found => ?_
  obtain ⟨learns, same⟩ := found
  cases a with
  | none => exact .done proceeds.fences trivial
  | some x =>
    have rendered : (m x ctx).lift.EndsFairly g still ctx.stack fair mid fun _ _ => True :=
      .lift ((shown x mid learns same.symm).weaken fun text after later =>
        ⟨.learnt proceeds.fences later, trivial⟩)
    refine Program.EndsFairly.bind
      (.bind rendered fun text after later _ => .done later.fences trivial)
      fun text after later (_ : True) => .done later.fences trivial

end Deriving

section Searching
variable {inner : CallStack} (fences : w.Fences g.named g.environment)
  (placed : (ctx.withStack inner).Placed g) (bears : w.Bears True v t)
  (permits : ctx.stack.Permits w v t key)
  (listed : inner.active = ⟨v, key.index⟩ :: ctx.stack.active)
include fences placed bears permits listed

theorem rule_endsFairly {rule : StandardRule} (member : rule ∈ StandardRule.forKey key) :
    (rule.inference.apply v (ctx.withStack inner)).EndsFairly g still inner fair w
      fun _ _ => True := by
  have source := permits.source member listed
  have regular := rule.source_regular
  have rendering : rule.kind = .text → inner.Calm ∧ ∀ u : Term, u.depth < t.depth →
      ∀ p ∈ inner.active, ∃ other, w.Bears True p.value other ∧ u.depth < other.depth := by
    intro text
    have calm := permits.calm_of_rule member
    have index : rule.key.id.index = key.index :=
      KeyId.beq_iff_index_eq.mp (List.mem_filter.mp member).2
    obtain rfl : key = Key.text.id := permits.standard.resolve_left fun other =>
      other.1 (index.symm.trans (rule.text_of_kind text))
    exact ⟨calm.rendering listed, fun u less => permits.deeper_part bears listed less⟩
  cases rule with
  | blockText | numberText | definitionText | functionText | blockEvaluate | listEvaluate
  | nameEvaluate | nameAssign | quotedEvaluate | definitionFunction =>
    exact direct_endsFairly placed fences bears regular source
  | nameText | blockExpand | listExpand | nameExpand | quotedExpand =>
    exact directAt_endsFairly placed fences bears regular source
  | listText =>
    obtain ⟨calm, deeper⟩ := rendering rfl
    refine composed_endsFairly placed fences bears regular source fun x mid learns found => ?_
    cases bears with
    | intro _ _ _ layer each =>
      change (w.node v).answer? Key.list = some x at found
      generalize w.node v = n at layer found
      cases layer with
      | list l even =>
        cases found
        have fences' := fences.learnt learns
        refine (format_all_satisfies placed calm fences' even fun p member => ?_).bind
          fun texts after later => Act.Satisfies.done later
        have less := Nat.lt_succ_of_le (Term.depth_le_all (List.of_mem_zip member).2)
        refine ⟨learns.bears _ _ (each p member), fun q busy => ?_⟩
        obtain ⟨u, other, deeper'⟩ := deeper p.2 less q busy
        exact ⟨u, learns.bears _ _ other, deeper'⟩
      | _ => cases found
  | quotedText =>
    obtain ⟨calm, deeper⟩ := rendering rfl
    refine composed_endsFairly placed fences bears regular source fun x mid learns found => ?_
    cases bears with
    | intro _ _ _ layer each =>
      change (w.node v).answer? Key.quoted = some x at found
      generalize w.node v = n at layer found
      cases layer with
      | quoted item t l =>
        cases found
        have fences' := fences.learnt learns
        have bears' := learns.bears _ _ (each (item, t) (List.mem_singleton_self _))
        refine (format_satisfies fences' placed bears' calm fun q busy => ?_).bind
          fun text after later => Act.Satisfies.done later
        obtain ⟨u, other, deeper'⟩ := deeper t (Nat.lt_succ_self _) q busy
        exact ⟨u, learns.bears _ _ other, deeper'⟩
      | _ => cases found

theorem rules_fare (rules : List StandardRule)
    (each : ∀ rule ∈ rules, rule ∈ StandardRule.forKey key) :
    (applyFirst g.behaviour v (ctx.withStack inner) (rules.map .standard)).EndsFairly g still inner
      fair w fun _ _ => True := by
  induction rules generalizing w with
  | nil => exact .done fences trivial
  | cons rule rest ih =>
    obtain ⟨here, there⟩ := List.forall_mem_cons.mp each
    refine (rule_endsFairly fences placed bears permits listed here).bind fun a mid proceeds _ => ?_
    cases a with
    | some answer => exact .done proceeds.fences trivial
    | none =>
      exact ih proceeds.fences (proceeds.bears _ _ bears)
        (permits.grown proceeds.toKeepsBearings) there

theorem derive_endsFairly :
    (deriveAnswer g.behaviour w v key (ctx.withStack inner)).EndsFairly g still inner fair w
      fun _ _ => True := by
  cases own : (w.node v).own? key with
  | some answer =>
    rw [deriveAnswer_own own]
    exact .done fences trivial
  | none =>
    have lacks := Node.lacks_of_own bears.settled.fixed own
    rw [deriveAnswer_ruled lacks (ctx.withStack inner) (placed.standard fences)]
    exact rules_fare fences placed bears permits listed _ fun rule member => member

end Searching

theorem resolved_of_body {body : Act H (Request.resolve v key ctx : Request H).Answer}
    (fences : w.Fences g.named g.environment) (placed : ctx.Placed g) (bears : w.Bears True v t)
    (permits : ctx.stack.Permits w v t key)
    (runs : (Request.resolve v key ctx).body? g.behaviour w = some body) :
    body.Satisfies g.contract w fun r mid =>
      (Request.resolve v key ctx).Ends g.behaviour w r ((Request.resolve v key ctx).settle r mid) →
      Resolved w v key ctx.stack r ((Request.resolve v key ctx).settle r mid) := by
  obtain ⟨-, inner, entered, rfl⟩ := Request.body?_resolve_iff.mp runs
  obtain ⟨sound, leads⟩ := placed.sound.derive entered
  have derives : (deriveAnswer g.behaviour w v key (ctx.withStack inner)).EndsFairly g True inner
      (fun _ => False) w fun _ _ => True :=
    derive_endsFairly fences ⟨placed.environment, leads.limit.trans placed.limit, sound⟩ bears
      permits (CallStack.admitted entered).2.2
  refine Program.Satisfies.weaken derives fun r mid outcome ended => ?_
  obtain ⟨learns, said, typed⟩ := ended_learnsAnswers (placed.standard fences) bears permits ended
  refine ⟨learns, fun f same => ?_, said, typed⟩
  obtain ⟨traces, spent⟩ := outcome.fails f same
  exact ⟨traces.outer leads, spent.resolve_right id⟩

theorem resolved_at_once {r : Except Failure (Option (Payload H))}
    (fences : w.Fences g.named g.environment) (placed : ctx.Placed g) (bears : w.Bears True v t)
    (permits : ctx.stack.Permits w v t key)
    (at_once : (Request.resolve v key ctx).body? g.behaviour w = none)
    (ended : (Request.resolve v key ctx).Ends g.behaviour w r after) :
    Resolved w v key ctx.stack r after := by
  obtain ⟨learns, said, typed⟩ := ended_learnsAnswers (placed.standard fences) bears permits ended
  refine ⟨learns, fun f same => ?_, said, typed⟩
  subst same
  cases ended.at_once at_once with
  | refused refused =>
    have idle : ctx.stack.isActive v key = false := by
      rw [← Bool.not_eq_true, CallStack.isActive_iff]
      exact permits.idle
    cases full : ctx.stack.atLimit with
    | false => simp [CallStack.derive, idle, full] at refused
    | true =>
      simp only [CallStack.derive, idle, full, if_true, Bool.false_eq_true, if_false] at refused
      cases refused
      exact ⟨Failure.traces_limit placed.sound full, Failure.spent_limit _⟩

end TraitDispatch
