import TraitDispatch.Proofs.Asking

/- Renderings where nesting is limited. A value is shown with placeholders for the parts that there
   was no room for, whether now or when the text that is shown was remembered. With room for all of
   its parts, and if nothing remembered lacks any of them, it is shown in full. -/
namespace TraitDispatch
variable {H : Host} {B : Behaviour H} {w after : World H} {k : Kind} {cut lost : Prop} {v : Value}
  {t u : Term} {fuel : Nat} {enough : Prop} {ctx : Context}

/-- There is room for a rendering of the term with all of its parts. In progress are renderings of
    deeper terms only. -/
structure CallStack.Ample (cut : Prop) (w : World H) (s : CallStack) (t : Term) : Prop where
  room : s.Room (t.height + 2)
  deeper : ∀ p ∈ s.active, ∃ u, w.Bears cut p.value u ∧ t.depth < u.depth

namespace CallStack
variable {s inner : CallStack}

theorem Ample.grown (ample : s.Ample cut w t) (learns : w.LearnsAnswers cut after) :
    s.Ample cut after t := by
  refine ⟨ample.room, fun p member => ?_⟩
  obtain ⟨u, bears, deeper⟩ := ample.deeper p member
  exact ⟨u, learns.bears _ _ bears, deeper⟩

theorem Ample.part (ample : s.Ample cut w t) (bears : w.Bears cut v t) (below : s.Below inner)
    (listed : inner.active = ⟨v, Key.text.id.index⟩ :: s.active) (less : u.depth < t.depth)
    (lower : u.height < t.height) : inner.Ample cut w u := by
  refine ⟨below.room_iff.mpr (ample.room.fewer (by omega)), fun p member => ?_⟩
  rw [listed] at member
  rcases List.mem_cons.mp member with here | there
  · subst p
    exact ⟨t, bears, less⟩
  · obtain ⟨u', other, deeper⟩ := ample.deeper p there
    exact ⟨u', other, by omega⟩

theorem Calm.rendering (calm : s.Calm)
    (listed : inner.active = ⟨v, Key.text.id.index⟩ :: s.active) : inner.Calm := by
  intro p member
  rw [listed] at member
  rcases List.mem_cons.mp member with rfl | there
  · rfl
  · exact calm p there

end CallStack

structure CallStack.Admits (s : CallStack) (v : Value) : Prop where
  room : s.Room 2
  idle : ⟨v, Key.text.id.index⟩ ∉ s.active

theorem CallStack.Ample.admits {s : CallStack} (ample : s.Ample cut w t)
    (bears : w.Bears cut v t) : s.Admits v := by
  refine ⟨ample.room.fewer (by omega), fun busy => ?_⟩
  obtain ⟨u, other, deeper⟩ := ample.deeper _ busy
  obtain rfl := bears.unique other
  omega

/-- How the search for a rendering of the term ends. Where it finds nothing or fails, a placeholder
    can stand for the term. -/
inductive Searched (cut lost : Prop) (w : World H) (t : Term) :
    Except Failure (Option (Payload H)) → World H → Prop where
  | found {text : Text} {after : World H} (recollects : w.LearnsRenderings cut after)
      (displays : t.Displays cut False text.text) :
      Searched cut lost w t (.ok (some ⟨.text, text⟩)) after
  | nothing {after : World H} (recollects : w.LearnsRenderings cut after)
      (displays : t.Displays cut lost placeholder) : Searched cut lost w t (.ok none) after
  | failed {failure : Failure} {after : World H} (recollects : w.LearnsRenderings cut after)
      (displays : t.Displays cut lost placeholder) : Searched cut lost w t (.error failure) after

theorem Searched.later {mid : World H} {r : Except Failure (Option (Payload H))}
    (earlier : w.LearnsRenderings cut mid) (searched : Searched cut lost mid t r after) :
    Searched cut lost w t r after := by
  cases searched with
  | found recollects displays => exact .found (earlier.trans recollects) displays
  | nothing recollects displays => exact .nothing (earlier.trans recollects) displays
  | failed recollects displays => exact .failed (earlier.trans recollects) displays

structure Shown (cut lost : Prop) (w : World H) (t : Term) (text : String) (after : World H) :
    Prop where
  recollects : w.LearnsRenderings cut after
  displays : t.Displays cut lost text

theorem format_of_searched
    (searched : (Program.resolve v Key.text.id ctx.withoutRecording).EndsIf B fuel enough w
      (Searched cut lost w t)) :
    (v.format ctx).EndsIf B fuel enough w (Shown cut lost w t) := by
  have asked : (v.answer? Key.text ctx.withoutRecording).EndsIf B fuel enough w fun r mid =>
      (∃ text, r = .ok (some text) ∧ Shown cut lost w t text.text mid) ∨
      ((r = .ok none ∨ ∃ failure, r = .error failure) ∧ Shown cut lost w t placeholder mid) := by
    refine searched.bind (fun a mid found => ?_) fun failure mid found => ?_
    · cases found with
      | found recollects displays =>
        simp only [Payload.as?_self]
        exact .done (.inl ⟨_, rfl, recollects, displays.weaken⟩)
      | nothing recollects displays => exact .done (.inr ⟨.inl rfl, recollects, displays⟩)
    · cases found with
      | failed recollects displays => exact .inr ⟨.inr ⟨_, rfl⟩, recollects, displays⟩
  have begun : (v.answer? Key.text ctx.withoutRecording).run.EndsIf B fuel enough w _ :=
    ⟨asked.ends, asked.finds⟩
  refine begun.bind fun r mid found => ?_
  rcases found with ⟨text, rfl, shown⟩ | ⟨rfl | ⟨failure, rfl⟩, shown⟩
  · exact .done shown
  · exact .done shown
  · exact .done shown

section Search
variable {n : Node H} (bears : w.Bears cut v t) (node : w.node v = n)
  (standard : w.Standard ctx.environment) (calm : ctx.stack.Calm)
  (placed : lost ∨ ctx.stack.Room 1)

theorem source_simple (n : Node H) {rule : StandardRule} (other : rule ≠ .functionText) :
    n.Simple rule.source.id := by
  cases rule <;> first
    | exact .inr rfl
    | exact absurd rfl other

include bears node standard calm

theorem source_finds {rule : StandardRule} (simple : n.Simple rule.source.id)
    (fuelled : enough → 0 < fuel) :
    (v.answer? rule.source ctx).EndsIf B fuel enough w
      (Finds ctx.stack w (n.answer? rule.source)) := by
  subst node
  have regular := rule.source_regular
  have asked := asked_answer? bears regular
    (simple_endsIf (B := B) bears standard regular.id simple (calm.idle regular.id) fuelled)
  exact asked.weaken id fun r mid asked => asked.finds bears.settled simple

theorem rejected_finds {rule : StandardRule} (simple : n.Simple rule.source.id)
    (absent : n.answer? rule.source = none) (fuelled : enough → 0 < fuel) :
    (rule.inference.apply v ctx).EndsIf B fuel enough w (Finds ctx.stack w none) := by
  have asked : (v.answer? rule.source ctx).EndsIf B fuel enough w (Finds ctx.stack w none) := by
    rw [← absent]
    exact source_finds bears node standard calm simple fuelled
  cases rule <;> first
    | exact Finds.bind asked fun mid _ => Finds.done none
    | exact Finds.bind (Finds.bind asked fun mid _ => Finds.done none) fun mid _ => Finds.done none

include placed

theorem passed_searched (passed rest : List StandardRule) (fuelled : enough → 0 < fuel)
    (absent : passed.all fun r => (n.answer? r.source).isNone && r ≠ .functionText)
    (later : ∀ mid, w.LearnsRenderings cut mid →
      (applyFirst B v ctx (rest.map .standard)).EndsIf B fuel enough mid
        (Searched cut lost mid t)) :
    (applyFirst B v ctx ((passed ++ rest).map .standard)).EndsIf B fuel enough w
      (Searched cut lost w t) := by
  induction passed generalizing w with
  | nil => exact later w (.same w)
  | cons first passed ih =>
    rw [List.all_cons, Bool.and_eq_true, Bool.and_eq_true, decide_eq_true_eq] at absent
    obtain ⟨⟨lacking, form⟩, others⟩ := absent
    have here : (first.inference.apply v ctx).EndsIf B fuel enough w (Finds ctx.stack w none) :=
      rejected_finds bears node standard calm (source_simple n form)
        (Option.isNone_iff_eq_none.mp lacking) fuelled
    refine here.bind (fun a mid found => ?_) fun failure mid found => ?_
    · cases found with
      | found recollects =>
        have learnt := (recollects cut).toLearnsAnswers
        have remaining := ih (learnt.bears v t bears) ((learnt.node v).trans node)
          (learnt.standard standard) others fun mid' grown =>
            later mid' ((recollects cut).trans grown)
        exact remaining.weaken id fun r after ends => ends.later (recollects cut)
    · cases found with
      | exhausted recollects _ cramped =>
        exact .failed (recollects cut) (.lost (placed.resolve_right cramped) t)

end Search

theorem accepted_searched {rule : StandardRule} {rest : List (Rule H)}
    (accepts : (rule.inference.apply v ctx).EndsIf B fuel enough w fun r mid =>
      r ≠ .ok none ∧ Searched cut lost w t r mid) :
    (applyFirst B v ctx (.standard rule :: rest)).EndsIf B fuel enough w
      (Searched cut lost w t) := by
  refine accepts.bind (fun a mid found => ?_) fun failure mid found => found.2
  obtain ⟨accepted, searched⟩ := found
  cases a with
  | none => exact absurd rfl accepted
  | some answer => exact .done searched

theorem Finds.searched {text : Text} {r : Except Failure (Option (Payload H))}
    (found : Finds ctx.stack w (some ⟨.text, text⟩) r after) (placed : lost ∨ ctx.stack.Room 1)
    (right : text.text = t.render) : r ≠ .ok none ∧ Searched cut lost w t r after := by
  cases found with
  | found recollects =>
    refine ⟨nofun, .found (recollects cut) ?_⟩
    rw [right]
    exact .whole t
  | exhausted recollects _ cramped =>
    exact ⟨nofun, .failed (recollects cut) (.lost (placed.resolve_right cramped) t)⟩

theorem composed_searched {key : Key k} {x : k.Carrier H} {m : k.Carrier H → Context → Act H String}
    (asked : (v.answer? key ctx).EndsIf B fuel enough w (Finds ctx.stack w (some x)))
    (placed : lost ∨ ctx.stack.Room 1)
    (shown : ∀ mid, w.LearnsRenderings cut mid →
      (m x ctx).EndsIf B fuel enough mid (Shown cut False mid t)) :
    ((⟨_, .conforms key, fun x ctx => do return ⟨← (m x ctx).lift, none⟩⟩ :
      Inference H .text).apply v ctx).EndsIf B fuel enough w fun r mid =>
        r ≠ .ok none ∧ Searched cut lost w t r mid := by
  refine asked.bind (fun a mid found => ?_) fun failure mid found => ?_
  · cases found with
    | found recollects =>
      have derived : (do return ⟨← (m x ctx).lift, none⟩ : Program H Text).EndsIf B fuel enough mid
          fun r after => ∃ text : Text, r = .ok text ∧ Shown cut False mid t text.text after := by
        refine (Program.EndsIf.lift (shown mid (recollects cut))).bind (fun s after found => ?_)
          fun failure after found => ?_
        · obtain ⟨_, same, right⟩ := found
          cases same
          exact .done ⟨_, rfl, right⟩
        · cases found.choose_spec.1
      refine derived.bind (fun text after found => ?_) fun failure after found => ?_
      · obtain ⟨_, same, right⟩ := found
        cases same
        exact .done ⟨nofun, .found ((recollects cut).trans right.recollects) right.displays⟩
      · cases found.choose_spec.1
  · cases found with
    | exhausted recollects _ cramped =>
      exact ⟨nofun, .failed (recollects cut) (.lost (placed.resolve_right cramped) t)⟩

theorem format_all_endsIf {items : List Value} {ts : List Term} (even : items.length = ts.length)
    (each : ∀ p ∈ items.zip ts, ∀ mid, w.LearnsRenderings cut mid →
      (p.1.format ctx).EndsIf B fuel enough mid (Shown cut cut mid p.2)) :
    (items.mapM fun item : Value => item.format ctx).EndsIf B fuel enough w fun texts after =>
      w.LearnsRenderings cut after ∧ ts.length = texts.length ∧
        ∀ p ∈ ts.zip texts, p.1.Displays cut cut p.2 := by
  induction items generalizing ts w with
  | nil =>
    rw [List.length_eq_zero_iff.mp even.symm]
    exact .done ⟨.same w, rfl, nofun⟩
  | cons item items ih =>
    cases ts with
    | nil => cases even
    | cons t ts =>
      rw [List.mapM_cons]
      have first := each (item, t) (List.mem_cons_self ..) w (.same w)
      refine first.bind fun s mid shown => ?_
      have others := ih (w := mid) (Nat.succ.inj even) fun p member later grown =>
        each p (List.mem_cons_of_mem _ member) later (shown.recollects.trans grown)
      refine others.bind fun texts after rest => .done ?_
      obtain ⟨recollects, even', displays⟩ := rest
      refine ⟨shown.recollects.trans recollects, by simp [even'], fun p member => ?_⟩
      rw [List.zip_cons_cons] at member
      rcases List.mem_cons.mp member with rfl | there
      · exact shown.displays
      · exact displays p there

theorem bare_searched {l : Option Location} (bears : w.Bears cut v (.empty l))
    (node : w.node v = .bare l) (standard : w.Standard ctx.environment) (calm : ctx.stack.Calm)
    (fuelled : enough → ctx.stack.Brief fuel ∨ 2 ≤ fuel) :
    (applyFirst B v ctx [.standard .functionText]).EndsIf B fuel enough w
      (Searched cut lost w (.empty l)) := by
  have regular : Key.function.Regular := ⟨rfl, by decide⟩
  have asked := asked_answer? bears regular
    (regular_endsIf (B := B) bears standard regular.id calm fuelled)
  rw [node] at asked
  have nothing : (v.answer? Key.function ctx).EndsIf B fuel enough w fun r mid =>
      w.LearnsRenderings cut mid ∧ ∀ a, r = .ok a → a = none := by
    refine asked.weaken id fun r mid asked => ?_
    cases asked with
    | answered consults _ =>
      refine ⟨consults.learnsRenderings bears.settled (fun _ => ?_) cut, fun a same => ?_⟩
      · rw [node]
        rfl
      · cases same
        rfl
    | exhausted recollects => exact ⟨recollects cut, nofun⟩
  have applied : (StandardRule.functionText.inference.apply v ctx).EndsIf B fuel enough w
    fun r mid =>
      w.LearnsRenderings cut mid ∧ ∀ a, r = .ok a → a = none := by
    refine nothing.bind (fun a mid found => ?_) fun failure mid found => ⟨found.1, nofun⟩
    obtain rfl := found.2 a rfl
    exact .done ⟨found.1, fun a same => by cases same; rfl⟩
  refine applied.bind (fun a mid found => ?_) fun failure mid found => .failed found.1 (.whole _)
  obtain rfl := found.2 a rfl
  exact .done (.nothing found.1 (.whole _))

theorem search_endsIf {n : Node H} {parts : List (Value × Term)} (bears : w.Bears cut v t)
    (node : w.node v = n) (layer : Term.Layer n t parts) (standard : w.Standard ctx.environment)
    (calm : ctx.stack.Calm) (placed : lost ∨ ctx.stack.Room 1)
    (fuelled : enough → ctx.stack.Brief fuel ∨ 2 ≤ fuel)
    (below : ∀ p ∈ parts, p.2.depth < t.depth → p.2.height < t.height → ∀ mid,
      w.LearnsRenderings cut mid →
        (p.1.format ctx).EndsIf B fuel enough mid (Shown cut cut mid p.2)) :
    (applyFirst B v ctx ((StandardRule.forKey Key.text.id).map .standard)).EndsIf B fuel enough w
      (Searched cut lost w t) := by
  have fuelled' : enough → 0 < fuel := fun plenty => CallStack.fuel_pos (fuelled plenty)
  have asks : ∀ (rule : StandardRule) {mid : World H}, w.LearnsRenderings cut mid →
      n.Simple rule.source.id → (v.answer? rule.source ctx).EndsIf B fuel enough mid
        (Finds ctx.stack mid (n.answer? rule.source)) := fun rule mid recollects simple =>
    source_finds (recollects.bears v t bears) ((recollects.node v).trans node)
      (recollects.standard standard) calm simple fuelled'
  -- The shape decides which rule accepts. The rules before it ask for what the value lacks.
  cases layer with
  | empty l =>
    refine passed_searched bears node standard calm placed [.blockText, .listText, .nameText,
      .numberText, .quotedText, .definitionText] _ fuelled' rfl fun mid recollects => ?_
    exact bare_searched (recollects.bears v _ bears) ((recollects.node v).trans node)
      (recollects.standard standard) calm fuelled
  | name n l =>
    refine passed_searched bears node standard calm placed [.blockText, .listText] _ fuelled' rfl
      fun mid recollects => ?_
    refine accepted_searched ((directAt_finds (asks .nameText recollects (.inr rfl))).weaken id
      fun r after found => ?_)
    exact Finds.searched found placed rfl
  | number n l =>
    refine passed_searched bears node standard calm placed [.blockText, .listText, .nameText] _
      fuelled' rfl fun mid recollects => ?_
    refine accepted_searched ((direct_finds (asks .numberText recollects (.inr rfl))).weaken id
      fun r after found => ?_)
    exact Finds.searched found placed rfl
  | @list items ts l even =>
    refine passed_searched bears node standard calm placed [.blockText] _ fuelled' rfl
      fun mid recollects => ?_
    refine accepted_searched (composed_searched (asks .listText recollects (.inr rfl)) placed
      fun later grown => ?_)
    have texts := format_all_endsIf (w := later) even fun p member last grown' => by
      have within := (List.of_mem_zip member).2
      exact below p member (Nat.lt_succ_of_le (Term.depth_le_all within))
        (Term.height_lt_all within) last ((recollects.trans grown).trans grown')
    refine texts.bind fun shown last found => .done ?_
    exact ⟨found.1, .list l found.2.1 found.2.2⟩
  | block l even =>
    refine accepted_searched ((direct_finds (asks .blockText (.same w) (.inr rfl))).weaken id
      fun r after found => ?_)
    exact Finds.searched found placed rfl
  | quoted item t l =>
    refine passed_searched bears node standard calm placed [.blockText, .listText, .nameText,
      .numberText] _ fuelled' rfl fun mid recollects => ?_
    refine accepted_searched (composed_searched (asks .quotedText recollects (.inr rfl)) placed
      fun later grown => ?_)
    have text := below (item, t) (List.mem_singleton_self _) (Nat.lt_succ_self _)
      (Nat.lt_succ_self _) later (recollects.trans grown)
    exact text.bind fun shown last found => .done ⟨found.recollects, .quoted l found.displays⟩
  | definition _ _ _ _ l =>
    refine passed_searched bears node standard calm placed [.blockText, .listText, .nameText,
      .numberText, .quotedText] _ fuelled' rfl fun mid recollects => ?_
    refine accepted_searched ((direct_finds (asks .definitionText recollects (.inr rfl))).weaken id
      fun r after found => ?_)
    exact Finds.searched found placed rfl
  | display l | definer l | definerOf _ _ l | function f l =>
    refine passed_searched bears node standard calm placed [.blockText, .listText, .nameText,
      .numberText, .quotedText, .definitionText] _ fuelled' rfl fun mid recollects => ?_
    refine accepted_searched ((direct_finds (asks .functionText recollects
      (.inl (Option.some_ne_none _)))).weaken id fun r after found => ?_)
    exact Finds.searched found placed rfl

theorem World.LearnsRenderings.remember_text {mid : World H} {text : Text} (bears : w.Bears cut v t)
    (recollects : w.LearnsRenderings cut mid) (displays : t.Displays cut False text.text) :
    w.LearnsRenderings cut (mid.remember v Key.text.id ⟨.text, text⟩) := by
  have bears' := recollects.bears v t bears
  have made := bears'.made
  have learns : mid.LearnsAnswers cut (mid.remember v Key.text.id ⟨.text, text⟩) := by
    refine .remember (fun regular => absurd rfl regular.1) fun _ u other => ⟨text, rfl, ?_⟩
    obtain rfl := bears'.unique other
    exact displays
  refine recollects.trans ⟨learns, fun u key regular => ?_⟩
  rw [World.derived_remember made, if_neg fun here => regular.1 here.2]

def Rendered (B : Behaviour H) (cut : Prop) (fuel : Nat) : Prop :=
  ∀ {w : World H} {v : Value} {t : Term} {ctx : Context} {lost : Prop}, w.Bears cut v t →
    w.Standard ctx.environment → ctx.stack.Calm → cut ∨ ctx.stack.Ample cut w t →
    lost ∨ ctx.stack.Admits v →
    (v.format ctx).EndsIf B fuel (ctx.stack.Brief fuel ∨ t.depth + 3 ≤ fuel) w (Shown cut lost w t)

theorem resolve_text_endsIf (bears : w.Bears cut v t) (standard : w.Standard ctx.environment)
    (calm : ctx.stack.Calm) (spacious : cut ∨ ctx.stack.Ample cut w t)
    (placed : lost ∨ ctx.stack.Admits v) (earlier : ∀ less < fuel, Rendered B cut less) :
    (Program.resolve v Key.text.id ctx).EndsIf B fuel (ctx.stack.Brief fuel ∨ t.depth + 3 ≤ fuel) w
      (Searched cut lost w t) := by
  refine resolve_endsIf ?_ (fun answer memo => ?_) (fun failure unknown refused => ?_)
    fun inner less unknown entered spends => ?_
  · rintro (brief | deep)
    · exact brief.pos
    · omega
  · obtain ⟨text, rfl, displays⟩ := bears.recites _ answer rfl memo
    exact .found (.same w) displays
  · refine .failed (.same w) (.lost (placed.resolve_right fun admits => ?_) t)
    obtain ⟨cramped, -⟩ := CallStack.refused admits.idle refused
    exact cramped (admits.room.fewer (by omega))
  · obtain ⟨room, below, listed⟩ := CallStack.admitted entered
    subst spends
    have less_fuelled : ctx.stack.Brief (less + 1) ∨ t.depth + 3 ≤ less + 1 →
        inner.Brief less ∨ t.depth + 2 ≤ less := by
      rintro (brief | deep)
      · exact .inl (brief.below below room)
      · exact .inr (by omega)
    have searched : (deriveAnswer B w v Key.text.id (ctx.withStack inner)).EndsIf B less
        (inner.Brief less ∨ t.depth + 2 ≤ less) w (Searched cut lost w t) := by
      cases bears with
      | intro known settled recites layer each =>
        have bears : w.Bears cut v t := .intro known settled recites layer each
        rw [deriveAnswer_ruled layer.find?_text (ctx.withStack inner) standard]
        refine search_endsIf bears rfl layer standard (calm.rendering listed)
          (placed.imp_right fun admits => below.room_iff.mpr admits.room) ?_
          fun p member shallower lower mid recollects => ?_
        · exact fun plenty => plenty.imp_right fun deep => by omega
        · have bears' := recollects.bears _ _ (each p member)
          have spacious' : cut ∨ inner.Ample cut mid p.2 := spacious.imp_right fun ample =>
            (ample.part bears below listed shallower lower).grown recollects.toLearnsAnswers
          have standard' : mid.Standard (ctx.withStack inner).environment :=
            recollects.standard standard
          refine (earlier less (Nat.lt_succ_self less) bears' standard' (calm.rendering listed)
            spacious' (spacious'.imp_right fun ample => ample.admits bears')).fewer fun plenty =>
              plenty.imp_right fun deep => ?_
          omega
    refine searched.weaken less_fuelled fun r mid found => ?_
    cases found with
    | found recollects displays =>
      exact .found (recollects.remember_text bears displays) displays
    | nothing recollects displays => exact .nothing recollects displays
    | failed recollects displays => exact .failed recollects displays

theorem format_endsIf (fuel : Nat) : Rendered B cut fuel (H := H) := by
  induction fuel using Nat.strongRecOn with
  | ind fuel earlier =>
    intro w v t ctx lost bears standard calm spacious placed
    have spacious' : cut ∨ ctx.withoutRecording.stack.Ample cut w t :=
      spacious.imp_right fun ample => ⟨ample.room, ample.deeper⟩
    have placed' : lost ∨ ctx.withoutRecording.stack.Admits v :=
      placed.imp_right fun admits => ⟨admits.room, admits.idle⟩
    have standard' : w.Standard ctx.withoutRecording.environment := standard
    have searched := resolve_text_endsIf bears standard' calm spacious' placed' earlier
    exact format_of_searched searched

end TraitDispatch
