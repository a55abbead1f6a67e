import TraitDispatch.Proofs.Locality
import TraitDispatch.Proofs.Refinement

/- Direct evaluation has an outcome wherever interpretation by dispatch ends. Fuel that suffices for
   a run suffices for the computation that it follows, as long as no function is applied of which
   nothing is known. -/
namespace TraitDispatch
variable {H : Host} {α β γ δ : Type} {B : Behaviour H} {w : World H} {fuel : Nat}

/-- Where the program ends within the fuel, the computation has an outcome. -/
def Program.Reflects (B : Behaviour H) (fuel : Nat) (m : Program H α) (w : World H) (d : Direct β)
    (s : Store) : Prop :=
  ∀ p, m.perform (respond B fuel) w = some p → ∃ q, d s = some q

section Reflecting
variable {e : EnvironmentId} {out : Output} {silent : Prop} {s : Store} {ctx : Context}

namespace Program
variable {m : Program H α} {d : Direct β} {f : α → Program H γ} {g : β → Direct δ}

theorem ReducesTo.reflects {rest : Program H α} {w' : World H}
    (comes : m.ReducesTo B True w rest w') (reflects : rest.Reflects B fuel w' d s) :
    m.Reflects B fuel w d s := fun p ran => reflects p (comes.spends ran)

theorem Succeeds.reflects {p : α → World H → Prop} {d : Direct δ}
    (quiet : m.Succeeds B (World.AddsValues True) w p)
    (rest : ∀ a w', World.AddsValues True w w' → p a w' → (f a).Reflects B fuel w' d s) :
    (m >>= f).Reflects B fuel w d s := by
  obtain ⟨a, w', holds, comes⟩ := quiet.reducesTo f
  exact comes.reflects (rest a w' comes.grown holds)

theorem Reflects.bind {rel : World H → α → β → Prop} (first : m.Reflects B fuel w d s)
    (realizes : m.Realizes B e out silent w d s rel)
    (rest : ∀ a b w' s', d s = some (.ok b, s') → World.KeepsTerms True w w' → w'.Models e out s' →
      rel w' a b → (f a).Reflects B fuel w' (g b) s') :
    (m >>= f).Reflects B fuel w (d >>= g) s := by
  intro p ran
  rw [perform_bind] at ran
  obtain ⟨⟨r, mid⟩, begun, later⟩ := Option.bind_eq_some_iff.mp ran
  obtain ⟨⟨outcome, s'⟩, had⟩ := first _ begun
  obtain ⟨r', mid', ends, reaches, models, agrees⟩ := realizes outcome s' had
  obtain ⟨rfl, rfl⟩ := ends_unique ends ⟨fuel, begun⟩
  cases outcome with
  | error cause => exact ⟨_, Direct.bind_error had⟩
  | ok b =>
    cases r' with
    | error failure => exact absurd agrees id
    | ok a =>
      obtain ⟨q, found⟩ := rest a b mid' s' had reaches.toKeepsTerms models agrees p later
      exact ⟨q, (Direct.bind_ok had).trans found⟩

theorem Reflects.bind_total (first : m.Reflects B fuel w d s)
    (total : ∀ b s', ∃ q, g b s' = some q) : (m >>= f).Reflects B fuel w (d >>= g) s := by
  intro p ran
  rw [perform_bind] at ran
  obtain ⟨⟨r, mid⟩, begun, -⟩ := Option.bind_eq_some_iff.mp ran
  obtain ⟨⟨_ | b, s'⟩, had⟩ := first _ begun
  · exact ⟨_, Direct.bind_error had⟩
  · obtain ⟨q, found⟩ := total b s'
    exact ⟨q, (Direct.bind_ok had).trans found⟩

theorem reflects_evaluate {f : Evaluator H.Code}
    (applied : ∀ less, fuel = less + 1 → (f.apply B ctx).Reflects B less w d s) :
    (Program.evaluate f ctx).Reflects B fuel w d s := by
  intro p ran
  obtain ⟨less, same, ran⟩ := spend_evaluate ran
  exact applied less same p ran

theorem reflects_call {f : Function H.Code} {argument : Value}
    (applied : (f.apply B argument ctx).Reflects B fuel w d s) :
    (Program.call f argument ctx).Reflects B fuel w d s := by
  intro p ran
  obtain ⟨less, same, spent⟩ := spend_call ran
  exact applied p (perform_more spent (by omega))

end Program

def Adequate (B : Behaviour H) (e : EnvironmentId) (out : Output) (fuel : Nat)
    (self : Term → Direct Term) : Prop :=
  ∀ {v : Value} {t : Term} {w : World H} {s : Store} {ctx : Context}, w.Represents True v t →
    t.known → w.Models e out s → s.Known → ctx.At e →
    (v.evaluate ctx).Reflects B fuel w (self t) s

section Forms
variable {self : Term → Direct Term} (adequate : Adequate B e out fuel self)
include adequate

theorem operand_reflects {v : Value} {t : Term} (holds : w.Represents True v t) (known : t.known)
    (models : w.Models e out s) (within : s.Known) (placed : ctx.At e) :
    (v.evaluateOrSelf ctx).Reflects B fuel w (t.operand self) s := by
  obtain ⟨w', comes⟩ := operand_reducesTo (B := B) holds (placed.standard models) placed.opened
  refine comes.reflects ?_
  rw [Term.operand]
  cases t.isSyntax with
  | true =>
    exact adequate (comes.grown.represents v t holds) known (models.grown comes.grown) within placed
  | false => exact fun _ _ => ⟨_, rfl⟩

theorem assignment_reflects {left right : List Value} {before behind : List Term}
    (target : List.Forall₂ (w.Represents True) left before)
    (source : List.Forall₂ (w.Represents True) right behind) (known : Term.knownAll behind)
    (models : w.Models e out s) (within : s.Known) (placed : ctx.At e) :
    (evaluateAssignment left right ctx).Reflects B fuel w (Term.assign self before behind) s := by
  have same : (left.isEmpty || right.isEmpty) = (before.isEmpty || behind.isEmpty) := by
    cases target <;> cases source <;> rfl
  rw [evaluateAssignment, Term.assign, same]
  cases before.isEmpty || behind.isEmpty with
  | true => exact fun _ _ => ⟨_, rfl⟩
  | false =>
    refine (bundle_succeeds target).reflects fun u w₁ grown₁ _ => ?_
    have source₁ := source.imp fun _ _ h => grown₁.represents _ _ h
    refine (bundle_succeeds source₁).reflects fun v w₂ grown₂ holds => ?_
    have evaluated := operand_reflects adequate holds (Term.known_grouped known)
      (models.grown (grown₁.trans grown₂)) within placed
    refine evaluated.bind_total fun value s' => ?_
    cases (Term.grouped before).name? <;> exact ⟨_, rfl⟩

theorem display_reflects {v : Value} {t : Term} (holds : w.Represents True v t) (known : t.known)
    (models : w.Models e out s) (within : s.Known) (placed : ctx.At e) (l : Option Location) :
    (display v ctx).Reflects B fuel w (Term.call self (.display l) t) s :=
  (operand_reflects adequate holds known models within placed).bind_total fun _ _ => ⟨_, rfl⟩

variable (simulates : Simulates B e out self)
  (locally : ∀ t : Term, t.known → (self t).Local fun u => u.known)
include simulates locally

theorem macro_reflects {parameter body argument : Value} {p b t : Term}
    (hasParameter : w.Represents True parameter p) (hasBody : w.Represents True body b)
    (within : b.known) (holds : w.Represents True argument t) (known : t.known)
    (models : w.Models e out s) (stored : s.Known) (placed : ctx.At e) (l : Option Location) :
    (Macro.apply ⟨parameter, body⟩ argument ctx).Reflects B fuel w
      (Term.call self (.definition p b l) t) s := by
  refine (operand_reflects adequate holds known models stored placed).bind
    (operand_realizes simulates holds models placed)
    fun replacement r w₁ s₁ had kept models₁ standsFor => ?_
  obtain ⟨result, stored₁, -⟩ := Term.operand_local locally known s _ _ stored had
  have body₁ := kept.represents _ _ hasBody
  have parameter₁ := kept.represents _ _ hasParameter
  cases syntactic : b.isSyntax with
  | false => exact fun _ _ => ⟨_, rfl⟩
  | true =>
    have expanded := expand_substitutes (B := B) replacement parameter₁ body₁ syntactic
      (placed.standard models₁) placed.opened
    refine expanded.reflects fun u w₂ grown₂ ⟨_, stands⟩ => ?_
    exact operand_reflects adequate (stands r standsFor)
      (Term.known_substitute (result r rfl) b within) (models₁.grown grown₂) stored₁ placed

theorem call_reflects {v argument : Value} {f t : Term} (called : w.Represents True v f)
    (known : f.known) (holds : w.Represents True argument t) (known' : t.known)
    (models : w.Models e out s) (stored : s.Known) (placed : ctx.At e) :
    (v.call argument ctx).Reflects B fuel w (Term.call self f t) s := by
  have represents := called
  cases called with
  | intro _ _ layer each =>
    generalize node : w.node v = n at layer
    cases layer with
    | definition parameter body p b l =>
      obtain ⟨inner, w', inside, comes⟩ := call_reducesTo (B := B) represents
        (placed.standard models) placed.opened argument (by rw [node]; rfl)
      have within := fun q member => comes.grown.represents _ _ (each q member)
      refine comes.reflects (Program.reflects_call ?_)
      exact macro_reflects adequate simulates locally (within (parameter, p) (by simp))
        (within (body, b) (by simp)) (Bool.and_eq_true_iff.mp known).2
        (comes.grown.represents _ _ holds) known' (models.grown comes.grown) stored
        (inside.at placed) l
    | display l =>
      obtain ⟨inner, w', inside, comes⟩ := call_reducesTo (f := .display) (B := B) represents
        (placed.standard models) placed.opened argument (by rw [node]; rfl)
      exact comes.reflects (Program.reflects_call (display_reflects adequate
        (comes.grown.represents _ _ holds) known' (models.grown comes.grown) stored
        (inside.at placed) l))
    | function f l => cases known
    | _ => exact fun _ _ => ⟨_, rfl⟩

theorem callAll_reflects {v : Value} {f : Term} {arguments : List Value} {ts : List Term}
    (called : w.Represents True v f) (known : f.known)
    (each : List.Forall₂ (w.Represents True) arguments ts) (known' : Term.knownAll ts)
    (models : w.Models e out s) (stored : s.Known) (placed : ctx.At e) :
    (callAll v arguments ctx).Reflects B fuel w (Term.callAll self f ts) s := by
  induction arguments generalizing w v f ts s with
  | nil =>
    cases each
    exact fun _ _ => ⟨_, rfl⟩
  | cons argument arguments ih =>
    obtain ⟨t, ts, first, rest, rfl⟩ := List.forall₂_cons_left_iff.mp each
    rw [Term.knownAll, Bool.and_eq_true] at known'
    refine (call_reflects adequate simulates locally called known first known'.1 models stored
      placed).bind (call_realizes simulates called first models placed)
      fun u g w' s' had kept models' called' => ?_
    obtain ⟨result, stored', -⟩ := Term.call_local locally known known'.1 s _ _ stored had
    exact ih called' (result g rfl) (rest.imp fun _ _ h => kept.represents _ _ h) known'.2 models'
      stored'

theorem list_reflects {items : List Value} {ts : List Term}
    (each : List.Forall₂ (w.Represents True) items ts) (known : Term.knownAll ts)
    (models : w.Models e out s) (stored : s.Known) (placed : ctx.At e) :
    (ListForm.evaluate ⟨items⟩ ctx).Reflects B fuel w (Term.apply self ts) s := by
  refine (split_succeeds each .nil models placed).reflects fun found w' grown sides => ?_
  have models' := models.grown grown
  have each' := each.imp fun _ _ h => grown.represents _ _ h
  unfold Term.apply
  cases mark : Term.splitMark ts with
  | none =>
    rw [mark] at sides
    cases sides
    cases each' with
    | nil => exact fun _ _ => ⟨_, rfl⟩
    | cons head arguments =>
      rw [Term.knownAll, Bool.and_eq_true] at known
      refine (operand_reflects adequate head known.1 models' stored placed).bind
        (operand_realizes simulates head models' placed) fun u f w₂ s₂ had kept models₂ called => ?_
      obtain ⟨result, stored₂, -⟩ := Term.operand_local locally known.1 s _ _ stored had
      exact callAll_reflects adequate simulates locally called (result f rfl)
        (arguments.imp fun _ _ h => kept.represents _ _ h) known.2 models₂ stored₂ placed
  | some split =>
    rw [mark] at sides
    cases sides with
    | some sides =>
      obtain ⟨target, source⟩ := sides
      exact assignment_reflects adequate target source (Term.known_split known mark).2 models'
        stored placed

theorem statements_reflect {result : Value} {t : Term} {statements : List (List Value)}
    {rows : List (List Term)} (holds : w.Represents True result t)
    (each : List.Forall₂ (List.Forall₂ (w.Represents True)) statements rows)
    (known : Term.knownRows rows) (models : w.Models e out s) (stored : s.Known)
    (placed : ctx.At e) :
    (evaluateStatements result statements ctx).Reflects B fuel w
      (Term.runStatements self t rows) s := by
  induction statements generalizing w result t rows s with
  | nil =>
    cases each
    exact fun _ _ => ⟨_, rfl⟩
  | cons statement statements ih =>
    obtain ⟨row, rows, first, rest, rfl⟩ := List.forall₂_cons_left_iff.mp each
    rw [Term.knownRows, Bool.and_eq_true] at known
    refine (createList_represents first).reflects fun list w₁ grown₁ ⟨listed, _⟩ => ?_
    have models₁ := models.grown grown₁
    refine (adequate listed known.1 models₁ stored placed).bind
      (simulates listed models₁ placed) fun u r w₂ s₂ had kept models₂ holds₂ => ?_
    obtain ⟨result, stored₂, -⟩ := locally (Term.listed row) known.1 s _ _ stored had
    refine ih holds₂ (rest.imp fun _ _ row => row.imp fun _ _ h => ?_) known.2 models₂ stored₂
    exact kept.represents _ _ (grown₁.represents _ _ h)

end Forms

theorem evaluate_adequate (fuel : Nat) : Adequate B e out fuel (Term.evaluate (fuel + 1)) := by
  induction fuel using Nat.strongRecOn with
  | ind fuel ih =>
    intro v t w s ctx holds known models stored placed
    have represents := holds
    have locally : ∀ fuel : Nat, ∀ t : Term, t.known → (t.evaluate fuel).Local fun u => u.known :=
      fun fuel t => Term.evaluate_local fuel
    cases holds with
    | intro _ _ layer each =>
      generalize node : w.node v = n at layer
      cases layer with
      | name n l =>
        intro p ran
        change ∃ q, Direct.lookup n.name s = some q
        unfold Direct.lookup
        cases s.scope n.name <;> exact ⟨_, rfl⟩
      | @list items ts l even =>
        obtain ⟨inner, w', inside, comes⟩ := evaluate_reducesTo (f := .list ⟨items⟩) (B := B)
          represents (placed.standard models) placed.opened (by rw [node]; rfl)
        have items' := (forall₂_iff_pairs.mpr ⟨even, each⟩).imp fun _ _ h =>
          comes.grown.represents _ _ h
        refine comes.reflects (Program.reflects_evaluate fun less same => ?_)
        subst same
        exact list_reflects (ih less (Nat.lt_succ_self less)) (evaluate_simulates _)
          (locally _) items' known (models.grown comes.grown) stored (inside.at placed)
      | @block statements rows l even =>
        obtain ⟨inner, w', inside, comes⟩ := evaluate_reducesTo (f := .block ⟨statements⟩) (B := B)
          represents (placed.standard models) placed.opened (by rw [node]; rfl)
        have rows' := (forall₂_iff_rows.mpr ⟨even, each⟩).imp fun _ _ row => row.imp fun _ _ h =>
          comes.grown.represents _ _ h
        have models' := models.grown comes.grown
        refine comes.reflects (Program.reflects_evaluate fun less same => ?_)
        subst same
        refine (Program.create_represents (.empty none) (by simp)).reflects
          fun u w₂ grown none => ?_
        exact statements_reflect (ih less (Nat.lt_succ_self less)) (evaluate_simulates _)
          (locally _) none (rows'.imp fun _ _ row => row.imp fun _ _ h => grown.represents _ _ h)
          known (models'.grown grown) stored (inside.at placed)
      | _ => exact fun _ _ => ⟨_, rfl⟩

end Reflecting
end TraitDispatch
