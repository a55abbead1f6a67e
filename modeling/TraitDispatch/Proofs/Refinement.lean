import TraitDispatch.Interpreter
import TraitDispatch.Proofs.Simulation

/- Interpretation by dispatch refines direct evaluation. By induction on the nesting of evaluations
   every form is seen to do what its term does; what a value answers is read off its node, so that
   dispatch comes in only there. -/
namespace TraitDispatch
variable {H : Host} {α β : Type} {B : Behaviour H} {w : World H}

section Following
variable {e : EnvironmentId} {out : Output} {s : Store} {ctx : Context}

def Simulates (B : Behaviour H) (e : EnvironmentId) (out : Output)
    (self : Term → Direct Term) : Prop :=
  ∀ {v : Value} {t : Term} {w : World H} {s : Store} {ctx : Context}, w.Represents True v t →
    w.Models e out s → ctx.At e →
    (v.evaluate ctx).Realizes B e out ctx.Silent w (self t) s (World.Represents True)

theorem evaluate_realizes {v : Value} {t : Term} {f : Evaluator H.Code} {d : Direct β}
    {rel : World H → Value → β → Prop} (holds : w.Represents True v t)
    (models : w.Models e out s) (placed : ctx.At e)
    (found : (w.node v).answer? Key.evaluate = some f)
    (applied : ∀ w' inner, World.AddsValues True w w' → inner.At e →
      (f.apply B inner).Realizes B e out inner.Silent w' d s rel) :
    (v.evaluate ctx).Realizes B e out ctx.Silent w d s rel := by
  obtain ⟨inner, w', inside, comes⟩ :=
    evaluate_reducesTo (B := B) holds (placed.standard models) placed.opened found
  exact comes.realizes_inside inside
    (realizes_evaluate (applied w' inner comes.grown (inside.at placed)))

theorem applied_realizes {v argument : Value} {t : Term} {f : Function H.Code} {d : Direct β}
    {rel : World H → Value → β → Prop} (holds : w.Represents True v t)
    (models : w.Models e out s) (placed : ctx.At e)
    (found : (w.node v).answer? Key.function = some f)
    (applied : ∀ w' inner, World.AddsValues True w w' → inner.At e →
      (f.apply B argument inner).Realizes B e out inner.Silent w' d s rel) :
    (v.call argument ctx).Realizes B e out ctx.Silent w d s rel := by
  obtain ⟨inner, w', inside, comes⟩ :=
    call_reducesTo (B := B) holds (placed.standard models) placed.opened argument found
  exact comes.realizes_inside inside
    (realizes_call (applied w' inner comes.grown (inside.at placed)))

theorem operand_realizes {self : Term → Direct Term} (simulates : Simulates B e out self)
    {v : Value} {t : Term} (holds : w.Represents True v t) (models : w.Models e out s)
    (placed : ctx.At e) :
    (v.evaluateOrSelf ctx).Realizes B e out ctx.Silent w (t.operand self) s
      (World.Represents True) := by
  obtain ⟨w', comes⟩ := operand_reducesTo (B := B) holds (placed.standard models) placed.opened
  have models' := models.grown comes.grown
  have holds' := comes.grown.represents v t holds
  refine comes.realizes ?_
  rw [Term.operand]
  cases t.isSyntax with
  | true => exact simulates holds' models' placed
  | false => exact Program.realizes_done models' holds'

theorem name_of_layer {n : Node H} {t : Term} {parts : List (Value × Term)}
    (layer : Term.Layer n t parts) : n.answer? Key.name = t.name? := by
  cases layer <;> rfl

theorem form_name_of_layer {n : Node H} {t : Term} {parts : List (Value × Term)}
    (layer : Term.Layer n t parts) : n.form? Key.name = t.name? := by
  cases layer <;> rfl

theorem expand_substitutes {exact : Prop} {v parameter : Value} {p b : Term} (replacement : Value)
    (hasParameter : w.Represents exact parameter p) (hasBody : w.Represents exact v b)
    (syntactic : b.isSyntax = true) (standard : w.Standard ctx.environment)
    (opened : ctx.stack.Open) :
    (v.expand parameter replacement ctx).Succeeds B (World.AddsValues exact) w
      (World.Expanded exact w p.name? replacement v b) := by
  obtain ⟨parts, layer⟩ := hasParameter.layered
  exact expand_replaces hasBody (hasParameter.settled.certain (by decide))
    (form_name_of_layer layer) syntactic (.same w) standard opened

theorem assigner_of_layer {n : Node H} {t : Term} {parts : List (Value × Term)}
    (layer : Term.Layer n t parts) : n.answer? Key.assign = t.name?.map .name := by
  cases layer <;> rfl

theorem split_succeeds {items passed : List Value} {ts before : List Term}
    (each : List.Forall₂ (w.Represents True) items ts)
    (earlier : List.Forall₂ (w.Represents True) passed before)
    (models : w.Models e out s) (placed : ctx.At e) :
    (splitAssignment passed items ctx).Succeeds B (World.AddsValues True) w fun found after =>
      Option.Rel (fun p q => List.Forall₂ (after.Represents True) p.1 q.1 ∧
          List.Forall₂ (after.Represents True) p.2 q.2) found
        ((Term.splitMark ts).map fun sides => (before.reverse ++ sides.1, sides.2)) := by
  induction items generalizing w ts passed before with
  | nil =>
    cases each
    exact .done .none
  | cons item items ih =>
    obtain ⟨t, ts, here, there, rfl⟩ := List.forall₂_cons_left_iff.mp each
    have ready := placed.ready here models
    obtain ⟨parts, layer⟩ := here.layered
    refine (ready.answer?_succeeds ⟨rfl, by decide⟩).bind fun name w' grown same => ?_
    rw [name_of_layer layer] at same
    subst same
    have items' := there.imp fun _ _ h => grown.represents _ _ h
    have passed' := earlier.imp fun _ _ h => grown.represents _ _ h
    rw [Term.splitMark]
    by_cases mark : t.name? = some ⟨":"⟩
    · rw [if_pos mark]
      have found : t.name? = some assignmentMark := mark
      rw [if_pos found]
      refine .done (.some ⟨?_, items'⟩)
      simp only [List.append_nil]
      exact List.forall₂_reverse_iff.mpr passed'
    · rw [if_neg mark]
      have other : t.name? ≠ some assignmentMark := mark
      rw [if_neg other]
      have rest := ih items' (.cons (grown.represents _ _ here) passed') (models.grown grown)
      simpa [Option.map_map, Function.comp_def] using rest

theorem bundle_succeeds {items : List Value} {ts : List Term}
    (each : List.Forall₂ (w.Represents True) items ts) :
    (bundle items).Succeeds B (World.AddsValues True) w fun u after =>
      after.Represents True u (.grouped ts) := by
  cases each with
  | nil => exact (createList_represents .nil).weaken fun _ _ _ result => result.1
  | cons first rest =>
    cases rest with
    | nil => exact .done first
    | cons second others =>
      exact (createList_represents (.cons first (.cons second others))).weaken fun _ _ _ result =>
        result.1

theorem evaluate_missing {v : Value} {t : Term} {rel : World H → Value → β → Prop}
    (holds : w.Represents True v t) (models : w.Models e out s) (placed : ctx.At e)
    (other : t.isSyntax = false) :
    (v.evaluate ctx).Realizes B e out ctx.Silent w (Direct.fail (.missingTrait "Evaluate")) s
      rel := by
  obtain ⟨inner, w', inside, comes⟩ :=
    evaluate_lacks (B := B) holds (placed.standard models) placed.opened other
  exact comes.realizes_inside inside (Program.realizes_fail (models.grown comes.grown))

theorem expand_missing {v parameter replacement : Value} {t : Term}
    {rel : World H → Value → β → Prop} (holds : w.Represents True v t)
    (models : w.Models e out s) (placed : ctx.At e) (other : t.isSyntax = false) :
    (v.expand parameter replacement ctx).Realizes B e out ctx.Silent w
      (Direct.fail (.missingTrait "Macro-Expand")) s rel := by
  obtain ⟨inner, w', inside, comes⟩ :=
    expand_lacks (B := B) holds (placed.standard models) placed.opened parameter replacement other
  exact comes.realizes_inside inside (Program.realizes_fail (models.grown comes.grown))

theorem defineMacro_realizes {parameter : Value} {t : Term} (holds : w.Represents True parameter t)
    (models : w.Models e out s) :
    (defineMacro parameter).Realizes B e out ctx.Silent w (pure (.definerOf t none)) s
      (World.Represents True) :=
  (Program.create_represents (.definerOf parameter t none) (by simpa using holds)).realizes_pure
    models fun _ _ _ created => created

theorem defineMacroOf_realizes {parameter body : Value} {p b : Term}
    (hasParameter : w.Represents True parameter p) (hasBody : w.Represents True body b)
    (models : w.Models e out s) :
    (defineMacroOf parameter body).Realizes B e out ctx.Silent w (pure (.definition p b p.location))
      s (World.Represents True) := by
  refine (Program.succeeds_location parameter).realizes fun location w₁ grown here => ?_
  rw [hasParameter.location_eq] at here
  subst here
  have parameter' := grown.represents _ _ hasParameter
  have body' := grown.represents _ _ hasBody
  exact (Program.create_represents (.definition parameter body p b _)
    (by simpa using ⟨parameter', body'⟩)).realizes_pure (models.grown grown)
      fun _ _ _ created => created

section Forms
variable {self : Term → Direct Term} (simulates : Simulates B e out self)
include simulates

theorem assignment_realizes {left right : List Value} {before behind : List Term}
    (target : List.Forall₂ (w.Represents True) left before)
    (source : List.Forall₂ (w.Represents True) right behind) (models : w.Models e out s)
    (placed : ctx.At e) :
    (evaluateAssignment left right ctx).Realizes B e out ctx.Silent w
      (Term.assign self before behind) s
      (World.Represents True) := by
  have same : (left.isEmpty || right.isEmpty) = (before.isEmpty || behind.isEmpty) := by
    cases target <;> cases source <;> rfl
  rw [evaluateAssignment, Term.assign, same]
  cases before.isEmpty || behind.isEmpty with
  | true => exact Program.realizes_fail models
  | false =>
    refine (bundle_succeeds target).realizes fun u w₁ grown₁ into => ?_
    have source₁ := source.imp fun _ _ h => grown₁.represents _ _ h
    refine (bundle_succeeds source₁).realizes fun v w₂ grown₂ from_v => ?_
    have models₂ := (models.grown grown₁).grown grown₂
    refine (operand_realizes simulates from_v models₂ placed).bind
      fun value t w₃ s₃ kept models₃ holds => ?_
    have into₃ := kept.represents _ _ (grown₂.represents _ _ into)
    have ready := placed.ready into₃ models₃
    obtain ⟨parts, layer⟩ := into₃.layered
    have assigner := assigner_of_layer layer
    cases named : (Term.grouped before).name? with
    | none =>
      rw [named] at assigner
      obtain ⟨w₄, comes⟩ := lacking_reducesTo (B := B) ready ⟨rfl, by decide⟩ assigner _
      exact comes.realizes (Program.realizes_fail (models₃.grown comes.grown))
    | some n =>
      rw [named] at assigner
      refine (ready.answer_succeeds ⟨rfl, by decide⟩ assigner).realizes fun a w₄ grown₄ here => ?_
      subst here
      have models₄ := models₃.grown grown₄
      exact (realizes_assign (assign_realizes models₄ placed (grown₄.represents _ _ holds) n)).bind
        fun _ _ w₅ s₅ _ models₅ _ => empty_realizes models₅

theorem display_realizes {v : Value} {t : Term} (holds : w.Represents True v t)
    (models : w.Models e out s) (placed : ctx.At e) :
    (display v ctx).Realizes B e out ctx.Silent w (Term.call self (.display none) t) s
      (World.Represents True) := by
  refine (operand_realizes simulates holds models placed).bind
    fun value u w₁ s₁ _ models₁ holds₁ => ?_
  have shown : (value.format ctx).Succeeds B (World.AddsValues True) w₁ fun text _ => True →
    text = u.render :=
    format_renders holds₁ (.same w₁) (placed.standard models₁) (placed.opened.above _)
  refine (Program.Succeeds.lift shown).realizes fun text w₂ grown₂ right => ?_
  obtain rfl := right trivial
  exact (printLine_realizes (models₁.grown grown₂) placed _).bind
    fun _ _ w₃ s₃ _ models₃ _ => empty_realizes models₃

theorem macro_realizes {parameter body argument : Value} {p b t : Term} {l : Option Location}
    (hasParameter : w.Represents True parameter p) (hasBody : w.Represents True body b)
    (holds : w.Represents True argument t) (models : w.Models e out s) (placed : ctx.At e) :
    (Macro.apply ⟨parameter, body⟩ argument ctx).Realizes B e out ctx.Silent w
      (Term.call self (.definition p b l) t) s (World.Represents True) := by
  refine (operand_realizes simulates holds models placed).bind
    fun replacement r w₁ s₁ kept models₁ standsFor => ?_
  have body₁ := kept.represents _ _ hasBody
  have parameter₁ := kept.represents _ _ hasParameter
  cases syntactic : b.isSyntax with
  | false =>
    have failed : (body.expand parameter replacement ctx).Realizes B e out ctx.Silent w₁
        (Direct.fail (.missingTrait "Macro-Expand")) s₁ (World.Represents True) :=
      expand_missing body₁ models₁ placed syntactic
    exact failed.bind_fail
  | true =>
    have expanded := expand_substitutes (B := B) replacement parameter₁ body₁ syntactic
      (placed.standard models₁) placed.opened
    refine expanded.realizes fun u w₂ grown₂ ⟨_, stands⟩ => ?_
    exact operand_realizes simulates (stands r standsFor) (models₁.grown grown₂) placed

theorem call_realizes {v argument : Value} {f t : Term} (called : w.Represents True v f)
    (holds : w.Represents True argument t) (models : w.Models e out s) (placed : ctx.At e) :
    (v.call argument ctx).Realizes B e out ctx.Silent w (Term.call self f t) s
      (World.Represents True) := by
  have represents := called
  cases called with
  | intro _ _ layer each =>
    generalize node : w.node v = n at layer
    cases layer with
    | definition parameter body p b l =>
      refine applied_realizes represents models placed (by rw [node]; rfl)
        fun w' inner grown placed' => ?_
      have within := fun q member => grown.represents _ _ (each q member)
      exact macro_realizes simulates (within (parameter, p) (by simp)) (within (body, b) (by simp))
        (grown.represents _ _ holds) (models.grown grown) placed'
    | display l =>
      exact applied_realizes (f := .display) represents models placed (by rw [node]; rfl)
        fun w' inner grown placed' => display_realizes simulates (grown.represents _ _ holds)
          (models.grown grown) placed'
    | definer l =>
      exact applied_realizes represents models placed (by rw [node]; rfl)
        fun w' inner grown _ => defineMacro_realizes (grown.represents _ _ holds)
          (models.grown grown)
    | definerOf parameter p l =>
      have within := each (parameter, p) (by simp)
      exact applied_realizes represents models placed (by rw [node]; rfl)
        fun w' inner grown _ => defineMacroOf_realizes (grown.represents _ _ within)
          (grown.represents _ _ holds) (models.grown grown)
    | function f l =>
      intro outcome s' ran
      cases ran
    | _ =>
      obtain ⟨inner, w', shown, inside, right, comes⟩ := call_lacks (B := B) represents
        (placed.standard models) placed.opened argument (by rw [node]; rfl)
      obtain rfl := right trivial
      exact comes.realizes_inside inside (Program.realizes_fail (models.grown comes.grown))

theorem callAll_realizes {v : Value} {f : Term} {arguments : List Value} {ts : List Term}
    (called : w.Represents True v f) (each : List.Forall₂ (w.Represents True) arguments ts)
    (models : w.Models e out s) (placed : ctx.At e) :
    (callAll v arguments ctx).Realizes B e out ctx.Silent w (Term.callAll self f ts) s
      (World.Represents True) := by
  induction arguments generalizing w v f ts s with
  | nil =>
    cases each
    exact Program.realizes_done models called
  | cons argument arguments ih =>
    obtain ⟨t, ts, first, rest, rfl⟩ := List.forall₂_cons_left_iff.mp each
    refine (call_realizes simulates called first models placed).bind
      fun u g w' s' kept models' called' => ?_
    exact ih called' (rest.imp fun _ _ h => kept.represents _ _ h) models'

theorem list_realizes {items : List Value} {ts : List Term}
    (each : List.Forall₂ (w.Represents True) items ts) (models : w.Models e out s)
    (placed : ctx.At e) :
    (ListForm.evaluate ⟨items⟩ ctx).Realizes B e out ctx.Silent w (Term.apply self ts) s
      (World.Represents True) := by
  refine (split_succeeds each .nil models placed).realizes fun found w' grown sides => ?_
  have models' := models.grown grown
  have each' := each.imp fun _ _ h => grown.represents _ _ h
  unfold Term.apply
  cases mark : Term.splitMark ts with
  | none =>
    rw [mark] at sides
    cases sides
    cases each' with
    | nil => exact empty_realizes models'
    | cons head arguments =>
      refine (operand_realizes simulates head models' placed).bind
        fun u f w₂ s₂ kept models₂ called => ?_
      exact callAll_realizes simulates called (arguments.imp fun _ _ h => kept.represents _ _ h)
        models₂ placed
  | some split =>
    rw [mark] at sides
    cases sides with
    | some sides =>
      obtain ⟨target, source⟩ := sides
      exact assignment_realizes simulates target source models' placed

theorem statements_follow {result : Value} {t : Term} {statements : List (List Value)}
    {rows : List (List Term)} (holds : w.Represents True result t)
    (each : List.Forall₂ (List.Forall₂ (w.Represents True)) statements rows)
    (models : w.Models e out s) (placed : ctx.At e) :
    (evaluateStatements result statements ctx).Realizes B e out ctx.Silent w
      (Term.runStatements self t rows) s (World.Represents True) := by
  induction statements generalizing w result t rows s with
  | nil =>
    cases each
    exact Program.realizes_done models holds
  | cons statement statements ih =>
    obtain ⟨row, rows, first, rest, rfl⟩ := List.forall₂_cons_left_iff.mp each
    refine (createList_represents first).realizes fun list w₁ grown₁ ⟨listed, _⟩ => ?_
    refine (simulates listed (models.grown grown₁) placed).bind
      fun u r w₂ s₂ kept models₂ holds₂ => ?_
    refine ih holds₂ (rest.imp fun _ _ row => row.imp fun _ _ h => ?_) models₂
    exact kept.represents _ _ (grown₁.represents _ _ h)

end Forms

theorem name_realizes (n : Name) (models : w.Models e out s) (placed : ctx.At e) :
    (n.evaluate ctx).Realizes B e out ctx.Silent w (Direct.lookup n.name) s
      (World.Represents True) := by
  obtain ⟨inner, w₁, inside, entered⟩ :=
    (enter_succeeds (B := B) placed.opened (.done trivial) none).reducesTo _
  refine entered.realizes_inside inside ?_
  refine (Program.succeeds_environment _).realizes fun found w₂ grown same => ?_
  have models₂ := (models.grown entered.grown).grown grown
  have bound := models₂.scope n.name
  rw [grown.environment, ← placed.environment, ← same] at bound
  intro outcome s' ran
  unfold Direct.lookup at ran
  generalize found.lookup n.name = x at bound
  generalize s.scope n.name = y at bound ran
  cases bound with
  | none => exact Program.realizes_fail models₂ outcome s' ran
  | some holds => exact Program.realizes_done models₂ holds outcome s' ran

/-- By induction on the fuel: whatever a form evaluates in turn gets by with less. -/
theorem evaluate_simulates (fuel : Nat) : Simulates B e out (Term.evaluate fuel) := by
  induction fuel with
  | zero =>
    intro v t w s ctx _ _ _ outcome s' ran
    cases ran
  | succ fuel ih =>
    intro v t w s ctx holds models placed
    have represents := holds
    cases holds with
    | intro _ _ layer each =>
      generalize node : w.node v = n at layer
      cases layer with
      | name n l =>
        exact evaluate_realizes represents models placed (by rw [node]; rfl)
          fun w₁ inner grown placed' => name_realizes n (models.grown grown) placed'
      | list l even =>
        have items := forall₂_iff_pairs.mpr ⟨even, each⟩
        refine evaluate_realizes represents models placed (by rw [node]; rfl)
          fun w₁ inner grown placed' => ?_
        exact list_realizes ih (items.imp fun _ _ h => grown.represents _ _ h)
          (models.grown grown) placed'
      | block l even =>
        have statements := forall₂_iff_rows.mpr ⟨even, each⟩
        refine evaluate_realizes represents models placed (by rw [node]; rfl)
          fun w₁ inner grown placed' => ?_
        have models₁ := models.grown grown
        refine (Program.create_represents (.empty none) (by simp)).realizes
          fun u w₂ grown₂ none => ?_
        refine statements_follow ih none (statements.imp fun _ _ row => row.imp fun _ _ h => ?_)
          (models₁.grown grown₂) placed'
        exact grown₂.represents _ _ (grown.represents _ _ h)
      | quoted item u l =>
        have within := each (item, u) (List.mem_singleton_self _)
        exact evaluate_realizes represents models placed (by rw [node]; rfl)
          fun w₁ inner grown _ =>
            Program.realizes_done (models.grown grown) (grown.represents _ _ within)
      | _ => exact evaluate_missing represents models placed rfl

end Following
end TraitDispatch
