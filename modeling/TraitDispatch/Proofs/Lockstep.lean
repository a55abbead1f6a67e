import TraitDispatch.Proofs.Tandem

/- Evaluation and expansion of built-in programs in two runs under different limits. Every program
   that is asked for is entered one entry further down than the one that asks, so a limit is met
   before fuel for as many entries is used up. -/
namespace TraitDispatch
variable {H : Host} {α α' β γ δ : Type} {B : Behaviour H} {e : EnvironmentId}
  {w w' after after' : World H} {v : Value} {k : Kind} {fuel : Nat} {enough : Prop}

section Codes
variable {κ : Type} {p q : Value → Prop}

inductive Function.Over (p : Value → Prop) : Function κ → Prop where
  | display : Over p .display
  | definer : Over p .definer
  | definerOf {parameter : Value} (each : p parameter) : Over p (.definerOf parameter)
  | application {definition : Macro} (parameter : p definition.parameter)
      (body : p definition.body) : Over p (.application definition)

inductive Evaluator.Over (p : Value → Prop) : Evaluator κ → Prop where
  | block {b : Block} (each : ∀ row ∈ b.statements, ∀ x ∈ row, p x) : Over p (.block b)
  | list {l : ListForm} (each : ∀ x ∈ l.items, p x) : Over p (.list l)
  | name (n : Name) : Over p (.name n)
  | quoted {inner : Value} (each : p inner) : Over p (.quoted inner)

inductive Expander.Over (p : Value → Prop) : Expander κ → Prop where
  | block {b : Block} (l : Option Location) (each : ∀ row ∈ b.statements, ∀ x ∈ row, p x) :
      Over p (.block b l)
  | list {items : ListForm} (l : Option Location) (each : ∀ x ∈ items.items, p x) :
      Over p (.list items l)
  | name (n : Name) (l : Option Location) : Over p (.name n l)
  | quoted {inner : Value} (l : Option Location) (each : p inner) : Over p (.quoted inner l)

inductive Assigner.BuiltIn : Assigner κ → Prop where
  | name (n : Name) : BuiltIn (.name n)

end Codes

namespace Term.Layer
variable {n : Node H} {t : Term} {parts : List (Value × Term)} {p : Value → Prop}

theorem function_over (layer : Layer n t parts) (known : t.known) (each : ∀ q ∈ parts, p q.1)
    {f : Function H.Code} (found : n.answer? Key.function = some f) : f.Over p := by
  cases layer with
  | definition parameter body t u l =>
    cases found
    exact .application (each (parameter, t) (by simp)) (each (body, u) (by simp))
  | definerOf parameter t l =>
    cases found
    exact .definerOf (each (parameter, t) (by simp))
  | display l =>
    cases found
    exact .display
  | definer l =>
    cases found
    exact .definer
  | function f l => cases known
  | _ => cases found

theorem evaluator_over (layer : Layer n t parts) (each : ∀ q ∈ parts, p q.1)
    {f : Evaluator H.Code} (found : n.answer? Key.evaluate = some f) : f.Over p := by
  cases layer with
  | name n l =>
    cases found
    exact .name n
  | list l even =>
    cases found
    exact .list (each_item even each)
  | block l even =>
    cases found
    exact .block (each_statement even each)
  | quoted inner t l =>
    cases found
    exact .quoted (each (inner, t) (by simp))
  | _ => cases found

theorem expander_over (layer : Layer n t parts) (each : ∀ q ∈ parts, p q.1)
    {f : Expander H.Code} (found : n.answer? Key.expand = some f) : f.Over p := by
  cases layer with
  | name n l =>
    cases found
    exact .name n l
  | list l even =>
    cases found
    exact .list l (each_item even each)
  | block l even =>
    cases found
    exact .block l (each_statement even each)
  | quoted inner t l =>
    cases found
    exact .quoted l (each (inner, t) (by simp))
  | _ => cases found

theorem items_over (layer : Layer n t parts) (each : ∀ q ∈ parts, p q.1) {items : ListForm}
    (found : n.answer? Key.list = some items) : ∀ x ∈ items.items, p x := by
  cases layer with
  | list l even =>
    cases found
    exact each_item even each
  | _ => cases found

theorem assigner_over (layer : Layer n t parts) {f : Assigner H.Code}
    (found : n.answer? Key.assign = some f) : f.BuiltIn := by
  cases layer with
  | name n l =>
    cases found
    exact .name n
  | _ => cases found

end Term.Layer

theorem World.Abreast.term (abreast : w.Abreast e w') (both : w.Both w' v) :
    ∃ t, w.Bears True v t ∧ w'.Bears True v t := by
  obtain ⟨⟨t, lower⟩, ⟨u, upper⟩⟩ := both
  obtain rfl := (abreast.spells lower.spells).unique upper.spells lower.known upper.known
  exact ⟨t, lower, upper⟩

theorem World.Abreast.parts (abreast : w.Abreast e w') (both : w.Both w' v) :
    ∃ t parts, t.known ∧ Term.Layer (w.node v) t parts ∧ ∀ q ∈ parts, w.Both w' q.1 := by
  obtain ⟨t, lower, upper⟩ := abreast.term both
  cases lower with
  | intro known _ _ layer each =>
    cases upper with
    | intro _ _ _ layer' each' =>
      rw [abreast.node] at layer'
      obtain rfl := layer.parts_unique layer'
      exact ⟨t, _, known, layer, fun q member => ⟨⟨_, each q member⟩, ⟨_, each' q member⟩⟩⟩

def World.Common (w w' : World H) (v v' : Value) : Prop := v' = v ∧ w.Both w' v

structure Abides (B : Behaviour H) (e : EnvironmentId) (fuel : Nat) : Prop where
  call : ∀ {w w' : World H} {ctx ctx' : Context} {f : Function H.Code} {argument : Value},
    w.Abreast e w' → ctx.Beside e ctx' → f.Over (w.Both w') → w.Both w' argument →
    Program.Tandem B fuel (ctx.stack.Brief fuel) e (f.apply B argument ctx)
      (f.apply B argument ctx') w w' World.Common
  evaluate : ∀ {w w' : World H} {ctx ctx' : Context} {f : Evaluator H.Code},
    w.Abreast e w' → ctx.Beside e ctx' → f.Over (w.Both w') →
    Program.Tandem B fuel (ctx.stack.Brief fuel) e (f.apply B ctx) (f.apply B ctx') w w'
      World.Common
  expand : ∀ {w w' : World H} {ctx ctx' : Context} {f : Expander H.Code}
    {parameter replacement : Value}, w.Abreast e w' → ctx.Beside e ctx' → f.Over (w.Both w') →
    w.Both w' parameter → w.Both w' replacement →
    Program.Tandem B fuel (ctx.stack.Brief fuel) e (f.apply B parameter replacement ctx)
      (f.apply B parameter replacement ctx') w w' World.Common

theorem Program.Tandem.request {m body : Program H α} {m' body' : Program H α'}
    {good : World H → World H → α → α' → Prop}
    (stuck : m.perform (respond B 0) w = none)
    (unfolds : ∀ less, m.perform (respond B (less + 1)) w = body.perform (respond B less) w)
    (follows : ∀ r after, body'.Ends B w' r after → m'.Ends B w' r after)
    (fuelled : enough → 0 < fuel)
    (runs : ∀ less, fuel = less + 1 → Tandem B less enough e body body' w w' good) :
    Tandem B fuel enough e m m' w w' good := by
  cases fuel with
  | zero =>
    refine ⟨fun plenty => absurd (fuelled plenty) (Nat.lt_irrefl 0), fun r after ran => ?_⟩
    rw [stuck] at ran
    cases ran
  | succ less =>
    have inner := runs less rfl
    refine ⟨fun plenty => ?_, fun r after ran => ?_⟩
    · rw [unfolds]
      exact inner.ends plenty
    · rw [unfolds] at ran
      cases inner.finds r after ran with
      | spent cause moves housed => exact .spent cause moves housed
      | failed ends advance kin => exact .failed (follows _ _ ends) advance kin
      | ended ends advance holds => exact .ended (follows _ _ ends) advance holds

def Context.Fuelled (enough : Prop) (fuel : Nat) (inner : Context) : Prop :=
  enough → ∃ less, fuel = less + 1 ∧ inner.stack.Brief less

namespace Context.Fuelled
variable {inner : Context} (fuelled : inner.Fuelled enough fuel)
include fuelled

theorem brief (plenty : enough) : inner.stack.Brief fuel := by
  obtain ⟨less, rfl, brief⟩ := fuelled plenty
  exact brief.more (Nat.le_succ less)

theorem pos (plenty : enough) : 0 < fuel := (fuelled.brief plenty).pos

theorem spend {less : Nat} (spends : fuel = less + 1) (plenty : enough) :
    inner.stack.Brief less := by
  obtain ⟨other, same, brief⟩ := fuelled plenty
  obtain rfl : other = less := by omega
  exact brief

end Context.Fuelled

section Requests
variable {ctx ctx' : Context} (earlier : ∀ less < fuel, Abides B e less)
  (abreast : w.Abreast e w') (beside : ctx.Beside e ctx') (fuelled : ctx.Fuelled enough fuel)
include earlier abreast beside fuelled

theorem call_request {f : Function H.Code} {argument : Value} (among : f.Over (w.Both w'))
    (held : w.Both w' argument) :
    Program.Tandem B fuel enough e (Program.call f argument ctx) (Program.call f argument ctx') w
      w' World.Common := by
  refine .request (Act.run_request _ _ _) (fun less => Act.run_request _ _ _)
    (fun _ _ => .call) fuelled.pos fun less spends => ?_
  exact ((earlier less (by omega)).call abreast beside among held).fewer (fuelled.spend spends)

theorem evaluate_request {f : Evaluator H.Code} (among : f.Over (w.Both w')) :
    Program.Tandem B fuel enough e (Program.evaluate f ctx) (Program.evaluate f ctx') w w'
      World.Common := by
  refine .request (Act.run_request _ _ _) (fun less => Act.run_request _ _ _)
    (fun _ _ => .evaluate) fuelled.pos fun less spends => ?_
  exact ((earlier less (by omega)).evaluate abreast beside among).fewer (fuelled.spend spends)

theorem expand_request {f : Expander H.Code} {parameter replacement : Value}
    (among : f.Over (w.Both w')) (named : w.Both w' parameter) (held : w.Both w' replacement) :
    Program.Tandem B fuel enough e (Program.expand f parameter replacement ctx)
      (Program.expand f parameter replacement ctx') w w' World.Common := by
  refine .request (Act.run_request _ _ _) (fun less => Act.run_request _ _ _)
    (fun _ _ => .expand) fuelled.pos fun less spends => ?_
  exact ((earlier less (by omega)).expand abreast beside among named held).fewer
    (fuelled.spend spends)

end Requests

end TraitDispatch
