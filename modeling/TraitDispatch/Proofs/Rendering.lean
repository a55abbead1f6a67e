import TraitDispatch.Proofs.Answers
import TraitDispatch.Resolution

/- The rendering of values that stand for terms. It goes through the rules of every part, and each
   part's rules go through the forms that the part does not have. Renderings in progress are those
   of deeper terms, so none is a cycle. -/
namespace TraitDispatch
variable {H : Host} {B : Behaviour H} {exact : Prop} {w : World H} {k : Kind}
  {R : World H → World H → Prop}

structure CallStack.Above (exact : Prop) (w : World H) (s : CallStack) (depth : Nat) : Prop where
  unlimited : s.limit = none
  deeper : ∀ p ∈ s.active, p.key = Key.text.id.index ∧
    ∃ u, w.Represents exact p.value u ∧ depth < u.depth

namespace CallStack
variable {s : CallStack} {depth : Nat}

theorem Open.above (opened : s.Open) (depth : Nat) : s.Above exact w depth := by
  refine ⟨opened.unlimited, fun p member => ?_⟩
  rw [opened.idle] at member
  cases member

theorem Above.grown {after : World H} (above : s.Above exact w depth)
    (grown : World.AddsValues exact w after) : s.Above exact after depth := by
  refine ⟨above.unlimited, fun p member => ?_⟩
  obtain ⟨text, u, holds, deeper⟩ := above.deeper p member
  exact ⟨text, u, grown.represents p.value u holds, deeper⟩

theorem Above.idle {v : Value} {t : Term} (above : s.Above exact w t.depth)
    (holds : w.Represents exact v t) : ⟨v, Key.text.id.index⟩ ∉ s.active := by
  intro busy
  obtain ⟨-, u, other, deeper⟩ := above.deeper _ busy
  have same := (holds.same_look other).2
  omega

theorem Above.inner {inner : CallStack} {v : Value} {t : Term} (above : s.Above exact w t.depth)
    (holds : w.Represents exact v t) (unlimited : inner.limit = none)
    (listed : inner.active = ⟨v, Key.text.id.index⟩ :: s.active) {below : Nat}
    (less : below < t.depth) : inner.Above exact w below := by
  refine ⟨unlimited, fun p member => ?_⟩
  rw [listed] at member
  rcases List.mem_cons.mp member with here | there
  · subst p
    exact ⟨rfl, t, holds, less⟩
  · obtain ⟨text, u, other, deeper⟩ := above.deeper p there
    exact ⟨text, u, other, by omega⟩

theorem Above.inner_clear {inner : CallStack} {v : Value} (above : s.Above exact w depth)
    (unlimited : inner.limit = none)
    (listed : inner.active = ⟨v, Key.text.id.index⟩ :: s.active) : inner.Clear v := by
  refine ⟨unlimited, fun p member _ => ?_⟩
  rw [listed] at member
  rcases List.mem_cons.mp member with here | there
  · subst p
    rfl
  · exact (above.deeper p there).1

end CallStack

def shownBy : Option (Payload H) → String
  | some answer => (answer.as? .text).elim placeholder (·.text)
  | none => placeholder

def Renders (exact : Prop) (t : Term) : Option (Payload H) → Prop
  | some answer => ∃ text : Text, answer = ⟨.text, text⟩ ∧ (exact → text.text = t.render)
  | none => t.render = placeholder

theorem format_succeeds {v : Value} {ctx : Context} {p : String → Prop}
    (resolved : (Program.resolve v Key.text.id ctx.withoutRecording).Succeeds B R w fun a _ =>
      p (shownBy a)) :
    (v.format ctx).Succeeds B R w fun s _ => p s := by
  obtain ⟨a, after, ends, grown, right⟩ := resolved
  cases a with
  | none =>
    have answered : (v.answer? Key.text ctx.withoutRecording).Ends B w (.ok none) after :=
      .bind ends (.done none after)
    exact ⟨placeholder, after, .bind answered (.done _ after), grown, right⟩
  | some p =>
    cases read : p.as? .text with
    | some text =>
      have answered : (v.answer? Key.text ctx.withoutRecording).Ends B w (.ok (some text))
          after := by
        refine .bind ends ?_
        simp only [read]
        exact .done (some text) after
      have same : shownBy (some p) = text.text := by simp [shownBy, read]
      rw [same] at right
      exact ⟨text.text, after, .bind answered (.done _ after), grown, right⟩
    | none =>
      have mistyped : (v.answer? Key.text ctx.withoutRecording).Ends B w
          (.error (.of (.kindMismatch Key.text.label))) after := by
        refine .bind ends ?_
        simp only [read]
        exact .failed _ after
      have same : shownBy (some p) = placeholder := by simp [shownBy, read]
      rw [same] at right
      exact ⟨placeholder, after, .bind mistyped (.done _ after), grown, right⟩

theorem format_of_resolved {v : Value} {ctx : Context} {shown : String}
    (resolved : (Program.resolve v Key.text.id ctx.withoutRecording).Succeeds B
      (World.AddsValues exact) w fun a _ =>
      exact → shownBy a = shown) :
    (v.format ctx).Succeeds B (World.AddsValues exact) w fun s _ => exact → s = shown :=
  format_succeeds (p := fun s => exact → s = shown) resolved

theorem resolve_rendering {v : Value} {t : Term} {ctx : Context} (holds : w.Represents exact v t)
    (standard : w.Standard ctx.environment) (above : ctx.stack.Above exact w t.depth)
    (search : ∀ inner : CallStack, inner.limit = none →
      inner.active = ⟨v, Key.text.id.index⟩ :: ctx.stack.active →
      (applyFirst B v (ctx.withStack inner)
        ((StandardRule.forKey Key.text.id).map .standard)).Succeeds B
          (World.AddsValues exact) w fun a _ =>
          Renders exact t a) :
    (Program.resolve v Key.text.id ctx).Succeeds B (World.AddsValues exact) w fun a _ =>
      exact → shownBy a = t.render := by
  cases memo : w.remembered v Key.text.id with
  | some answer =>
    refine ⟨_, w, .resolve (.remembered memo ctx), .same w, fun e => ?_⟩
    obtain ⟨text, rfl, right⟩ := holds.shows e _ answer rfl memo
    exact right
  | none =>
    obtain ⟨inner, admitted, unlimited, listed⟩ :=
      derive_unlimited above.unlimited (above.idle holds)
    have derived : (deriveAnswer B w v Key.text.id (ctx.withStack inner)).Succeeds B
        (World.AddsValues exact) w fun a _ => Renders exact t a := by
      have lacks : (w.node v).find? Key.text.id = none := by
        cases holds with
        | intro _ _ layer _ => exact layer.find?_text
      rw [deriveAnswer_ruled lacks (ctx.withStack inner) standard]
      exact search inner unlimited listed
    obtain ⟨a, after, ends, grown, renders⟩ := derived
    have settles := Program.Ends.resolve (.derived memo admitted ends)
    cases a with
    | none => exact ⟨_, _, settles, grown, fun _ => renders.symm⟩
    | some answer =>
      obtain ⟨text, rfl, right⟩ := renders
      refine ⟨_, _, settles, grown.trans (.remember (fun regular => absurd rfl regular.1)
        fun _ e u other => ⟨text, rfl, ?_⟩), right⟩
      have same := ((grown.represents v t holds).same_look other).1
      rw [right e, same]

@[reducible]
def StandardRule.form : StandardRule → Kind
  | .blockText | .blockEvaluate | .blockExpand => .block
  | .listText | .listEvaluate | .listExpand => .list
  | .nameEvaluate | .nameAssign | .nameExpand | .nameText => .name
  | .numberText => .number
  | .quotedEvaluate | .quotedExpand | .quotedText => .quoted
  | .definitionFunction | .definitionText => .definition
  | .functionText => .function

def StandardRule.source : (rule : StandardRule) → Key rule.form
  | .blockText | .blockEvaluate | .blockExpand => Key.block
  | .listText | .listEvaluate | .listExpand => Key.list
  | .nameEvaluate | .nameAssign | .nameExpand | .nameText => Key.name
  | .numberText => Key.number
  | .quotedEvaluate | .quotedExpand | .quotedText => Key.quoted
  | .definitionFunction | .definitionText => Key.definition
  | .functionText => Key.function

theorem StandardRule.source_regular (rule : StandardRule) : rule.source.Regular := by
  cases rule <;> exact ⟨rfl, by decide⟩

theorem rejects_of_check {i : Inference H k} {v : Value} {ctx : Context}
    (checked : (i.validation.check v ctx).Succeeds B (World.AddsValues exact)
      w fun a _ => a = none) :
    (i.apply v ctx).Succeeds B (World.AddsValues exact) w fun a _ => a = none := by
  refine checked.bind fun a _ _ none => ?_
  subst none
  exact .done rfl

theorem conformsAt_rejects {key : Key k} {v : Value} {ctx : Context}
    (asked : (v.answer? key ctx).Succeeds B (World.AddsValues exact) w fun a _ => a = none) :
    ((Validation.conformsAt key).check v ctx).Succeeds B (World.AddsValues exact) w
      fun a _ => a = none := by
  refine asked.bind fun a _ _ none => ?_
  subst none
  exact .done rfl

theorem rule_rejects {rule : StandardRule} {v : Value} {n : Node H} {ctx : Context}
    (ready : v.Ready w n ctx) (absent : n.answer? rule.source = none) :
    (rule.inference.apply v ctx).Succeeds B (World.AddsValues exact) w fun a _ => a = none := by
  have asked : (v.answer? rule.source ctx).Succeeds B (World.AddsValues exact) w
      fun a _ => a = none := by
    rw [← absent]
    exact ready.answer?_succeeds rule.source_regular
  cases rule <;> first
    | exact rejects_of_check asked
    | exact rejects_of_check (conformsAt_rejects asked)

theorem applyFirst_finds {v : Value} {ctx : Context} {n : Node H}
    {p : Option (Payload H) → World H → Prop} (passed rest : List StandardRule)
    (ready : v.Ready w n ctx) (absent : passed.all fun r => (n.answer? r.source).isNone)
    (later : ∀ w', World.AddsValues exact w w' → v.Ready w' n ctx →
      (applyFirst B v ctx (rest.map .standard)).Succeeds B (World.AddsValues exact) w' p) :
    (applyFirst B v ctx ((passed ++ rest).map .standard)).Succeeds B
      (World.AddsValues exact) w p := by
  induction passed generalizing w with
  | nil => exact later w (.same w) ready
  | cons first passed ih =>
    rw [List.all_cons, Bool.and_eq_true] at absent
    have none := Option.isNone_iff_eq_none.mp absent.1
    refine applyFirst_passes (rule_rejects ready none) fun w' grown => ?_
    exact ih (ready.grown grown) absent.2 fun w'' grown' => later w'' (grown.trans grown')

section Accepting
variable {v : Value} {n : Node H} {t : Term} {ctx : Context} {key : Key k} {x : k.Carrier H}

theorem direct_renders {f : k.Carrier H → Kind.Carrier H .text}
    (asked : (v.answer? key ctx).Succeeds B (World.AddsValues exact) w fun a _ => a = some x)
    (right : (f x).text = t.render) :
    ((Inference.direct key f).apply v ctx).Succeeds B (World.AddsValues exact) w fun a _ =>
      a.isSome ∧ Renders exact t a := by
  refine (direct_succeeds asked).weaken fun a _ _ same => ?_
  subst same
  exact ⟨rfl, f x, rfl, fun _ => right⟩

theorem directAt_renders {f : k.Carrier H → Option Location → Kind.Carrier H .text}
    (made : w.Made v) (asked : (v.answer? key ctx).Succeeds B (World.AddsValues exact)
      w fun a _ => a = some x)
    (right : ∀ l, (f x l).text = t.render) :
    ((Inference.directAt key f).apply v ctx).Succeeds B (World.AddsValues exact) w fun a _ =>
      a.isSome ∧ Renders exact t a := by
  refine (directAt_succeeds made asked).weaken fun a _ _ same => ?_
  subst same
  exact ⟨rfl, f x _, rfl, fun _ => right _⟩

theorem composed_renders {m : k.Carrier H → Context → Act H String}
    (asked : (v.answer? key ctx).Succeeds B (World.AddsValues exact) w fun a _ => a = some x)
    (shown : ∀ w', World.AddsValues exact w w' →
      (m x ctx).Succeeds B (World.AddsValues exact) w' fun s _ => exact → s = t.render) :
    ((⟨_, .conforms key, fun x ctx => do return ⟨← (m x ctx).lift, none⟩⟩ :
      Inference H .text).apply v ctx).Succeeds B (World.AddsValues exact) w fun a _ => a.isSome ∧
        Renders exact t a := by
  refine asked.bind fun a w' grown same => ?_
  subst same
  have derived : (do return ⟨← (m x ctx).lift, none⟩ : Program H Text).Succeeds B
      (World.AddsValues exact) w' fun text _ => exact → text.text = t.render :=
    (Program.Succeeds.lift (shown w' grown)).bind fun s _ _ right => .done right
  exact derived.bind fun text _ _ right => .done ⟨rfl, text, rfl, right⟩

end Accepting

theorem format_all_renders {items : List Value} {ts : List Term} {ctx : Context}
    (even : items.length = ts.length)
    (each : ∀ p ∈ items.zip ts, ∀ w', World.AddsValues exact w w' →
      (p.1.format ctx).Succeeds B (World.AddsValues exact) w' fun s _ => exact → s = p.2.render) :
    (items.mapM fun item : Value => item.format ctx).Succeeds B (World.AddsValues exact) w
      fun texts _ => exact → texts = ts.map Term.render := by
  induction items generalizing ts w with
  | nil =>
    rw [List.length_eq_zero_iff.mp even.symm]
    exact .done fun _ => rfl
  | cons item items ih =>
    cases ts with
    | nil => cases even
    | cons t ts =>
      rw [List.mapM_cons]
      have first := each (item, t) (List.mem_cons_self ..) w (.same w)
      refine first.bind fun s w' grown right => ?_
      have others := ih (w := w') (Nat.succ.inj even) fun p member w'' grown' =>
        each p (List.mem_cons_of_mem _ member) w'' (grown.trans grown')
      refine others.bind fun texts w'' _ right' => .done fun e => ?_
      rw [right e, right' e, List.map_cons]

theorem search_renders {v : Value} {n : Node H} {t : Term} {parts : List (Value × Term)}
    {ctx : Context} (layer : Term.Layer n t parts) (ready : v.Ready w n ctx)
    (below : ∀ p ∈ parts, p.2.depth < t.depth → ∀ w', World.AddsValues exact w w' →
      (p.1.format ctx).Succeeds B (World.AddsValues exact) w' fun s _ => exact → s = p.2.render) :
    (applyFirst B v ctx ((StandardRule.forKey Key.text.id).map .standard)).Succeeds B
      (World.AddsValues exact) w fun a _ => Renders exact t a := by
  -- The shape decides which rule accepts. The rules before it ask for what the value lacks.
  cases layer with
  | empty l =>
    exact applyFirst_finds [.blockText, .listText, .nameText, .numberText, .quotedText,
      .definitionText, .functionText] [] ready rfl fun w'' _ _ => .done rfl
  | name n l =>
    refine applyFirst_finds [.blockText, .listText] _ ready rfl fun w'' _ ready => ?_
    exact applyFirst_accepts (directAt_renders ready.settled.made
      (ready.answer?_succeeds ⟨rfl, by decide⟩) fun _ => rfl)
  | number n l =>
    refine applyFirst_finds [.blockText, .listText, .nameText] _ ready rfl fun w'' _ ready => ?_
    exact applyFirst_accepts
      (direct_renders (ready.answer?_succeeds ⟨rfl, by decide⟩) rfl)
  | @list items ts l even =>
    refine applyFirst_finds [.blockText] _ ready rfl fun w'' grown' ready => ?_
    refine applyFirst_accepts (composed_renders (ready.answer?_succeeds ⟨rfl, by decide⟩)
      fun w₃ grown₃ => ?_)
    have texts := format_all_renders (w := w₃) even fun p member w₄ grown₄ =>
      below p member (Nat.lt_succ_of_le (Term.depth_le_all (List.of_mem_zip member).2)) w₄
        ((grown'.trans grown₃).trans grown₄)
    refine texts.bind fun shown _ _ right => .done fun e => ?_
    rw [right e, Term.render, Term.renderAll_eq_map]
  | block l even =>
    exact applyFirst_accepts (direct_renders (ready.answer?_succeeds ⟨rfl, by decide⟩) rfl)
  | quoted item t l =>
    refine applyFirst_finds [.blockText, .listText, .nameText, .numberText] _ ready rfl
      fun w'' grown' ready => ?_
    refine applyFirst_accepts (composed_renders (ready.answer?_succeeds ⟨rfl, by decide⟩)
      fun w₃ grown₃ => ?_)
    have text := below (item, t) (List.mem_singleton_self _) (Nat.lt_succ_self _) w₃
      (grown'.trans grown₃)
    refine text.bind fun shown _ _ right => .done fun e => ?_
    rw [right e, Term.render]
  | definition _ _ _ _ l =>
    refine applyFirst_finds [.blockText, .listText, .nameText, .numberText, .quotedText] _ ready
      rfl fun w'' _ ready => ?_
    exact applyFirst_accepts
      (direct_renders (ready.answer?_succeeds ⟨rfl, by decide⟩) rfl)
  | display l | definer l | definerOf _ _ l | function f l =>
    refine applyFirst_finds [.blockText, .listText, .nameText, .numberText, .quotedText,
      .definitionText] _ ready rfl fun w'' _ ready => ?_
    exact applyFirst_accepts
      (direct_renders (ready.answer?_succeeds ⟨rfl, by decide⟩) rfl)

theorem format_renders {v : Value} {t : Term} (holds : w.Represents exact v t) {w' : World H}
    (grown : World.AddsValues exact w w') {ctx : Context} (standard : w'.Standard ctx.environment)
    (above : ctx.stack.Above exact w' t.depth) :
    (v.format ctx).Succeeds B (World.AddsValues exact) w' fun s _ => exact → s = t.render := by
  induction holds generalizing w' ctx with
  | @intro v t parts settled shows layer each ih =>
    have holds := grown.represents v t (.intro settled shows layer each)
    have quiet : ctx.withoutRecording.stack.Above exact w' t.depth :=
      ⟨above.unlimited, above.deeper⟩
    refine format_of_resolved (resolve_rendering holds standard quiet
      fun inner unlimited listed => ?_)
    have ready : v.Ready w' (w.node v) (ctx.withoutRecording.withStack inner) :=
      ⟨holds.settled, grown.node v settled.made, standard, quiet.inner_clear unlimited listed⟩
    -- The parts are rendered beneath this one, and so not in a cycle.
    refine search_renders layer ready fun p member less w'' grown' => ?_
    exact ih p member (grown.trans grown') (grown'.standard standard)
      ((quiet.inner holds unlimited listed less).grown grown')

/-- Nothing is recorded, and nothing was. -/
structure Context.Silent (ctx : Context) : Prop where
  quiet : ctx.stack.recording = false
  blank : ctx.stack.frames = []

/-- An entry in the same environment, in which nothing is being derived. -/
structure Context.Inside (ctx inner : Context) : Prop where
  environment : inner.environment = ctx.environment
  opened : inner.stack.Open
  silent : ctx.Silent → inner.Silent

theorem Context.inside_enter {ctx : Context} (opened : ctx.stack.Open) (label : String)
    (location : Option Location) : ctx.Inside (ctx.withStack (ctx.stack.enter label location)) where
  environment := rfl
  opened := by
    refine ⟨?_, ?_⟩
    · exact (active_enter _ _ _).trans opened.idle
    · exact (limit_enter _ _ _).trans opened.unlimited
  silent silent := by
    have quiet := silent.quiet
    simp only [Context.withStack, CallStack.enter, quiet, Bool.false_eq_true, if_false]
    exact ⟨rfl, silent.blank⟩

section Entering
variable {ctx : Context}

theorem labelled_succeeds {v : Value} {t : Term} (holds : w.Represents exact v t)
    (standard : w.Standard ctx.environment) (opened : ctx.stack.Open) (label : String → String) :
    (do return label (← v.format ctx) : Act H String).Succeeds B (World.AddsValues exact)
      w fun _ _ => True :=
  (format_renders holds (.same w) standard (opened.above _)).bind fun _ _ _ _ => .done trivial

theorem enter_succeeds [World.Growth R] {label : Act H String} (opened : ctx.stack.Open)
    (labelled : label.Succeeds B R w fun _ _ => True) (location : Option Location) :
    (ctx.enter label location).Succeeds B R w fun inner _ => ctx.Inside inner := by
  have free : ctx.stack.atLimit = false := by
    rw [CallStack.atLimit, opened.unlimited]
  have entered := fun shown => ctx.inside_enter opened shown location
  rw [Context.enter, free]
  by_cases recording : ctx.stack.recording
  · simp only [recording, Bool.false_eq_true, if_false, if_true]
    exact (Program.Succeeds.lift labelled).bind fun shown _ _ _ => .done (entered shown)
  · simp only [recording, Bool.false_eq_true, if_false]
    exact .done (entered "")

theorem World.Represents.ready {v : Value} {t : Term} (holds : w.Represents exact v t)
    (standard : w.Standard ctx.environment) (opened : ctx.stack.Open) :
    v.Ready w (w.node v) ctx :=
  ⟨holds.settled, rfl, standard, opened.clear v⟩

end Entering
end TraitDispatch
