import TraitDispatch.Proofs.Substitution

/- Programs that begin by asking. What they ask of values that stand for terms changes nothing but
   memo tables, so they do whatever is left of them once they have the answers. -/
namespace TraitDispatch
variable {H : Host} {α β : Type} {B : Behaviour H} {exact : Prop} {w w' : World H}

namespace Program

structure ReducesTo (B : Behaviour H) (exact : Prop) (m : Program H α) (w : World H)
    (rest : Program H α) (w' : World H) : Prop where
  grown : World.AddsValues exact w w'
  ends : ∀ {r : Except Failure α} {after : World H}, rest.Ends B w' r after → m.Ends B w r after
  spends : ∀ {fuel : Nat} {p : Except Failure α × World H},
    m.perform (respond B fuel) w = some p → rest.perform (respond B fuel) w' = some p

theorem ReducesTo.ends_iff {m rest : Program H α} (comes : m.ReducesTo B exact w rest w')
    {r : Except Failure α} {after : World H} : m.Ends B w r after ↔ rest.Ends B w' r after :=
  ⟨fun ⟨fuel, ran⟩ => ⟨fuel, comes.spends ran⟩, comes.ends⟩

theorem ReducesTo.trans {m mid rest : Program H α} {w'' : World H}
    (first : m.ReducesTo B exact w mid w') (second : mid.ReducesTo B exact w' rest w'') :
    m.ReducesTo B exact w rest w'' :=
  ⟨first.grown.trans second.grown, fun ran => first.ends (second.ends ran),
    fun ran => second.spends (first.spends ran)⟩

theorem Succeeds.reducesTo {m : Program H α} {p : α → World H → Prop}
    (succeeds : m.Succeeds B (World.AddsValues exact) w p)
    (f : α → Program H β) : ∃ a w', p a w' ∧ (m >>= f).ReducesTo B exact w (f a) w' := by
  obtain ⟨a, w', ends, grown, holds⟩ := succeeds
  exact ⟨a, w', holds, grown, .bind ends, ends.rest⟩

end Program

theorem evaluator_of_layer {n : Node H} {t : Term} {parts : List (Value × Term)}
    (layer : Term.Layer n t parts) : (n.answer? Key.evaluate).isSome = t.isSyntax := by
  cases layer <;> rfl

section Asking
variable {ctx : Context} {k : Kind} {key : Key k} {v : Value}

theorem answer_reducesTo {n : Node H} (ready : v.Ready w n ctx) (regular : key.Regular)
    {x : k.Carrier H} (found : n.answer? key = some x) (f : k.Carrier H → Program H α) :
    ∃ w', (v.answer key ctx >>= f).ReducesTo B exact w (f x) w' := by
  obtain ⟨a, w', same, comes⟩ := (ready.answer_succeeds (B := B) regular found).reducesTo f
  subst same
  exact ⟨w', comes⟩

theorem lacking_reducesTo {n : Node H} (ready : v.Ready w n ctx) (regular : key.Regular)
    (absent : n.answer? key = none) (f : k.Carrier H → Program H α) :
    ∃ w', (v.answer key ctx >>= f).ReducesTo B exact w
      (Program.fail (.missingTrait key.label) ctx.stack) w' := by
  have asked : (v.answer? key ctx).Succeeds B (World.AddsValues exact) w fun a _ =>
    a = n.answer? key :=
    ready.answer?_succeeds regular
  rw [absent] at asked
  rw [Value.answer, bind_assoc]
  obtain ⟨a, w', same, comes⟩ := asked.reducesTo _
  subst same
  exact ⟨w', comes⟩

variable {t : Term} (holds : w.Represents exact v t) (standard : w.Standard ctx.environment)
  (opened : ctx.stack.Open)
include holds standard opened

theorem entry_reducesTo (label : String → String) (f : Context → Program H α) :
    ∃ inner w', ctx.Inside inner ∧ v.Ready w' (w.node v) inner ∧
      (v.location >>= fun location => ctx.enter (do return label (← v.format ctx)) location >>=
        f).ReducesTo B exact w (f inner) w' := by
  obtain ⟨l, w₁, -, located⟩ := (Program.succeeds_location (B := B) v).reducesTo fun location =>
    ctx.enter (do return label (← v.format ctx)) location >>= f
  have holds₁ := located.grown.represents v t holds
  have standard₁ := located.grown.standard standard
  obtain ⟨inner, w₂, inside, entered⟩ :=
    (enter_succeeds (B := B) opened (labelled_succeeds holds₁ standard₁ opened label) l).reducesTo f
  have comes := located.trans entered
  have standard₂ : w.Standard inner.environment := by
    rw [inside.environment]
    exact standard
  exact ⟨inner, w₂, inside, (holds.ready standard₂ inside.opened).grown comes.grown, comes⟩

theorem entry_asks (label : String → String) (regular : key.Regular)
    (f : Context → Option (k.Carrier H) → Program H α) :
    ∃ inner w', ctx.Inside inner ∧ v.Ready w' (w.node v) inner ∧
      (v.location >>= fun location => ctx.enter (do return label (← v.format ctx)) location >>=
        fun inner => v.answer? key inner >>= f inner).ReducesTo B exact w
          (f inner ((w.node v).answer? key)) w' := by
  obtain ⟨inner, w₁, inside, ready, entered⟩ := entry_reducesTo (B := B) holds standard opened label
    fun inner => v.answer? key inner >>= f inner
  obtain ⟨a, w₂, same, asked⟩ := (ready.answer?_succeeds (B := B) regular).reducesTo (f inner)
  subst same
  exact ⟨inner, w₂, inside, ready.grown asked.grown, entered.trans asked⟩

theorem entry_finds (label : String → String) (regular : key.Regular) {x : k.Carrier H}
    (found : (w.node v).answer? key = some x) (f : Context → k.Carrier H → Program H α) :
    ∃ inner w', ctx.Inside inner ∧
      (v.location >>= fun location => ctx.enter (do return label (← v.format ctx)) location >>=
        fun inner => v.answer key inner >>= f inner).ReducesTo B exact w (f inner x) w' := by
  obtain ⟨inner, w₁, inside, ready, entered⟩ := entry_reducesTo (B := B) holds standard opened label
    fun inner => v.answer key inner >>= f inner
  obtain ⟨w₂, answered⟩ := answer_reducesTo ready regular found (f inner)
  exact ⟨inner, w₂, inside, entered.trans answered⟩

theorem entry_lacks (label : String → String) (regular : key.Regular)
    (absent : (w.node v).answer? key = none) (f : Context → k.Carrier H → Program H α) :
    ∃ inner w', ctx.Inside inner ∧
      (v.location >>= fun location => ctx.enter (do return label (← v.format ctx)) location >>=
        fun inner => v.answer key inner >>= f inner).ReducesTo B exact w
          (Program.fail (.missingTrait key.label) inner.stack) w' := by
  obtain ⟨inner, w₁, inside, ready, entered⟩ := entry_reducesTo (B := B) holds standard opened label
    fun inner => v.answer key inner >>= f inner
  obtain ⟨w₂, failed⟩ := lacking_reducesTo ready regular absent (f inner)
  exact ⟨inner, w₂, inside, entered.trans failed⟩

theorem evaluate_reducesTo {f : Evaluator H.Code}
    (found : (w.node v).answer? Key.evaluate = some f) :
    ∃ inner w', ctx.Inside inner ∧
      (v.evaluate ctx).ReducesTo B exact w (Program.evaluate f inner) w' :=
  entry_finds holds standard opened _ ⟨rfl, by decide⟩ found fun inner f =>
    Program.evaluate f inner

theorem evaluate_lacks (other : t.isSyntax = false) :
    ∃ inner w', ctx.Inside inner ∧ (v.evaluate ctx).ReducesTo B exact w
      (Program.fail (.missingTrait "Evaluate") inner.stack) w' := by
  obtain ⟨parts, layer⟩ := holds.layered
  have absent := evaluator_of_layer layer
  rw [other, Option.isSome_eq_false_iff, Option.isNone_iff_eq_none] at absent
  exact entry_lacks holds standard opened _ ⟨rfl, by decide⟩ absent fun inner f =>
    Program.evaluate f inner

theorem expand_lacks (parameter replacement : Value) (other : t.isSyntax = false) :
    ∃ inner w', ctx.Inside inner ∧ (v.expand parameter replacement ctx).ReducesTo B exact w
      (Program.fail (.missingTrait "Macro-Expand") inner.stack) w' := by
  obtain ⟨parts, layer⟩ := holds.layered
  have absent := expander_of_layer layer
  rw [other, Option.isSome_eq_false_iff, Option.isNone_iff_eq_none] at absent
  exact entry_lacks holds standard opened _ ⟨rfl, by decide⟩ absent fun inner f =>
    Program.expand f parameter replacement inner

theorem operand_reducesTo : ∃ w', (v.evaluateOrSelf ctx).ReducesTo B exact w
    (if t.isSyntax then v.evaluate ctx else pure v) w' := by
  obtain ⟨parts, layer⟩ := holds.layered
  obtain ⟨answers, w', same, comes⟩ := ((holds.ready standard opened).answers_succeeds (B := B)
    (⟨rfl, by decide⟩ : Key.evaluate.Regular)).reducesTo fun answers =>
      if answers then v.evaluate ctx else pure v
  rw [evaluator_of_layer layer] at same
  subst same
  exact ⟨w', comes⟩

theorem call_reducesTo {f : Function H.Code} (argument : Value)
    (found : (w.node v).answer? Key.function = some f) :
    ∃ inner w', ctx.Inside inner ∧
      (v.call argument ctx).ReducesTo B exact w (Program.call f argument inner) w' := by
  obtain ⟨inner, w', inside, -, comes⟩ := entry_asks (B := B) holds standard opened
    (fun shown => s!"calling {shown}") (⟨rfl, by decide⟩ : Key.function.Regular) _
  rw [found] at comes
  exact ⟨inner, w', inside, comes⟩

theorem call_lacks (argument : Value) (absent : (w.node v).answer? Key.function = none) :
    ∃ inner w' shown, ctx.Inside inner ∧ (exact → shown = t.render) ∧
      (v.call argument ctx).ReducesTo B exact w (Program.fail
        (.custom s!"cannot call {shown} because it is not a function") inner.stack) w' := by
  obtain ⟨inner, w₁, inside, ready, comes⟩ : ∃ inner w₁, ctx.Inside inner ∧
      Value.Ready w₁ v (w.node v) inner ∧ (v.call argument ctx).ReducesTo B exact w
        ((v.format inner).lift >>= fun shown => Program.fail
          (.custom s!"cannot call {shown} because it is not a function") inner.stack) w₁ := by
    obtain ⟨inner, w₁, inside, ready, comes⟩ := entry_asks (B := B) holds standard opened
      (fun shown => s!"calling {shown}") (⟨rfl, by decide⟩ : Key.function.Regular) _
    rw [absent] at comes
    exact ⟨inner, w₁, inside, ready, comes⟩
  have holds₁ := comes.grown.represents v t holds
  have rendered : (v.format inner).Succeeds B (World.AddsValues exact) w₁ fun shown _ => exact →
    shown = t.render :=
    format_renders holds₁ (.same w₁) ready.standard (inside.opened.above _)
  obtain ⟨shown, w₂, right, named⟩ := (Program.Succeeds.lift rendered).reducesTo _
  exact ⟨inner, w₂, shown, inside, right, comes.trans named⟩

end Asking
end TraitDispatch
