import TraitDispatch.Proofs.Course

/- Parentheses that make no difference. Application takes its arguments one after the other, so the
   first of them may be taken in a list of their own. What is assigned is evaluated as a list in any
   case. -/
namespace TraitDispatch
variable {H : Host} {α β γ : Type} {B : Behaviour H} {w : World H}

namespace Direct

theorem bind_assoc (m : Direct α) (f : α → Direct β) (g : β → Direct γ) :
    (m >>= f) >>= g = m >>= fun a => f a >>= g := by
  funext s
  rcases ran : m s with _ | ⟨_ | a, s'⟩
  · rw [bind_none ran, bind_none (bind_none ran)]
  · rw [bind_error ran, bind_error (bind_error ran)]
  · rw [bind_ok ran]
    simp only [bind, ran]

theorem bind_pure (m : Direct α) : (m >>= pure) = m := by
  funext s
  rcases ran : m s with _ | ⟨_ | a, s'⟩
  · exact bind_none ran
  · exact bind_error ran
  · exact bind_ok ran

end Direct

namespace Term

def Unmarked (ts : List Term) : Prop := ∀ t ∈ ts, t.name? ≠ some ⟨":"⟩

instance (ts : List Term) : Decidable (Unmarked ts) :=
  inferInstanceAs (Decidable (∀ t ∈ ts, t.name? ≠ some ⟨":"⟩))

theorem splitMark_unmarked {ts : List Term} (unmarked : Unmarked ts) : splitMark ts = none := by
  induction ts with
  | nil => rfl
  | cons t rest ih =>
    obtain ⟨here, there⟩ := List.forall_mem_cons.mp unmarked
    rw [splitMark, if_neg here, ih there]
    rfl

theorem splitMark_marked {left : List Term} (unmarked : Unmarked left) (l : Option Location)
    (right : List Term) :
    splitMark (left ++ .name ⟨":"⟩ l :: right) = some (left, right) := by
  induction left with
  | nil => rfl
  | cons t rest ih =>
    obtain ⟨here, there⟩ := List.forall_mem_cons.mp unmarked
    rw [List.cons_append, splitMark, if_neg here, ih there]
    rfl

section Evaluation
variable {self : Term → Direct Term}

theorem callAll_append (f : Term) (first second : List Term) :
    callAll self f (first ++ second) = callAll self f first >>= (callAll self · second) := by
  induction first generalizing f with
  | nil => rfl
  | cons argument rest ih =>
    rw [List.cons_append, callAll, callAll, Direct.bind_assoc]
    congr 1
    funext g
    exact ih g

theorem apply_unmarked {head : Term} {arguments : List Term}
    (unmarked : Unmarked (head :: arguments)) :
    apply self (head :: arguments) = operand self head >>= (callAll self · arguments) := by
  unfold apply
  rw [splitMark_unmarked unmarked]

theorem apply_append {first : List Term} (filled : first ≠ []) (second : List Term)
    (unmarked : Unmarked (first ++ second)) :
    apply self (first ++ second) = apply self first >>= (callAll self · second) := by
  cases first with
  | nil => exact absurd rfl filled
  | cons head arguments =>
    have shorter : Unmarked (head :: arguments) := fun t member =>
      unmarked t (List.mem_append_left _ member)
    rw [List.cons_append] at unmarked ⊢
    rw [apply_unmarked unmarked, apply_unmarked shorter, Direct.bind_assoc]
    congr 1
    funext f
    exact callAll_append f arguments second

theorem apply_marked {left : List Term} (unmarked : Unmarked left) (l : Option Location)
    (right : List Term) :
    apply self (left ++ .name ⟨":"⟩ l :: right) = assign self left right := by
  unfold apply
  rw [splitMark_marked unmarked]

end Evaluation

/-- Every outcome of the first is one of the second with one more level of nesting, and those of the
    second are outcomes of the first. -/
structure Unfolds (t u : Term) : Prop where
  into : ∀ fuel, (t.evaluate fuel).Within (u.evaluate (fuel + 1))
  back : ∀ fuel, (u.evaluate fuel).Within (t.evaluate fuel)

variable {xs ys left right : List Term} {l l' l'' : Option Location}

theorem evaluate_next (fuel : Nat) (t : Term) : (t.evaluate fuel).Within (t.evaluate (fuel + 1)) :=
  evaluate_within (Nat.le_succ fuel) t

theorem unfolds_head (filled : xs ≠ []) (unmarked : Unmarked (xs ++ ys)) :
    Unfolds (.list (xs ++ ys) l) (.list (.list xs l' :: ys) l'') := by
  have outer : Unmarked (.list xs l' :: ys) :=
    List.forall_mem_cons.mpr ⟨nofun, fun t member => unmarked t (List.mem_append_right _ member)⟩
  refine ⟨fun fuel => ?_, fun fuel => ?_⟩
  · cases fuel with
    | zero => exact fun s p ran => nomatch ran
    | succ fuel =>
      change (apply (evaluate fuel) (xs ++ ys)).Within (apply (evaluate (fuel + 1)) _)
      rw [apply_append filled ys unmarked, apply_unmarked outer]
      exact Direct.Within.bind (.same _) fun f => callAll_within (evaluate_next fuel) f ys
  · cases fuel with
    | zero => exact fun s p ran => nomatch ran
    | succ fuel =>
      change (apply (evaluate fuel) _).Within (apply (evaluate fuel) (xs ++ ys))
      rw [apply_append filled ys unmarked, apply_unmarked outer]
      refine Direct.Within.bind ?_ fun f => .same _
      exact evaluate_next fuel (.list xs l')

theorem grouped_unfolds (filled : right ≠ []) (other : ∀ t, right = [t] → t.name? ≠ some ⟨":"⟩)
    (fuel : Nat) :
    (operand (evaluate fuel) (grouped right)).Within (evaluate (fuel + 1) (.list right l)) ∧
      (evaluate fuel (.list right l)).Within (operand (evaluate fuel) (grouped right)) := by
  match right with
  | [] => exact absurd rfl filled
  | [t] =>
    have unmarked : Unmarked [t] := List.forall_mem_singleton.mpr (other t rfl)
    have alone : evaluate (fuel + 1) (.list [t] l) = operand (evaluate fuel) t := by
      change apply (evaluate fuel) [t] = _
      rw [apply_unmarked unmarked]
      exact Direct.bind_pure _
    have later := evaluate_next fuel (.list [t] l)
    rw [alone] at later ⊢
    exact ⟨.same _, later⟩
  | t :: u :: rest =>
    -- The location of a list has no bearing on its value.
    have same : ∀ n, evaluate n (.list (t :: u :: rest) l) =
        operand (evaluate n) (grouped (t :: u :: rest)) := by
      intro n
      cases n <;> rfl
    have next := evaluate_next fuel (.list (t :: u :: rest) l)
    rw [same fuel] at next ⊢
    exact ⟨next, .same _⟩

theorem assign_of_operand {self wider : Term → Direct Term} (right' : List Term)
    (filled : right ≠ []) (filled' : right' ≠ [])
    (within : (operand self (grouped right)).Within (operand wider (grouped right'))) :
    (assign self left right).Within (assign wider left right') := by
  have here : right.isEmpty = false := by simpa using filled
  have there : right'.isEmpty = false := by simpa using filled'
  unfold assign
  rw [here, there]
  split
  · exact .same _
  · exact within.bind fun value => .same _

theorem unfolds_assigned (unmarked : Unmarked left) (filled : right ≠ [])
    (other : ∀ t, right = [t] → t.name? ≠ some ⟨":"⟩) (m m' : Option Location) :
    Unfolds (.list (left ++ .name ⟨":"⟩ m :: right) l)
      (.list (left ++ [.name ⟨":"⟩ m', .list right l']) l'') := by
  refine ⟨fun fuel => ?_, fun fuel => ?_⟩
  · cases fuel with
    | zero => exact fun s p ran => nomatch ran
    | succ fuel =>
      have whole := grouped_unfolds (l := l') filled other fuel
      change (apply (evaluate fuel) _).Within (apply (evaluate (fuel + 1)) _)
      rw [apply_marked unmarked, apply_marked unmarked]
      exact assign_of_operand _ filled (List.cons_ne_nil _ _) whole.1
  · cases fuel with
    | zero => exact fun s p ran => nomatch ran
    | succ fuel =>
      have whole := grouped_unfolds (l := l') filled other fuel
      change (apply (evaluate fuel) _).Within (apply (evaluate fuel) _)
      rw [apply_marked unmarked, apply_marked unmarked]
      exact assign_of_operand _ (List.cons_ne_nil _ _) filled whole.2

end Term

section Worlds
variable {e : EnvironmentId} {out : Output} {silent : Prop} {s : Store} {good : β → Prop}
  {rel : World H → α → β → Prop} {m : Program H α} {d d' : Nat → Direct β}

theorem Program.RealizesExactly.congr (mirrors : m.RealizesExactly B e out silent w d' s rel good)
    (into : ∀ fuel, (d fuel).Within (d' (fuel + 1))) (back : ∀ fuel, (d' fuel).Within (d fuel))
    (locally : ∀ fuel, (d fuel).Local good) : m.RealizesExactly B e out silent w d s rel good where
  realizes fuel outcome s' had := mirrors.realizes (fuel + 1) outcome s' (into fuel s _ had)
  reflects fuel p ran := by
    obtain ⟨q, had⟩ := mirrors.reflects fuel p ran
    exact ⟨q, back (fuel + 1) s q had⟩
  locally := locally

theorem Term.Unfolds.endsLike {t u : Term} {v v' : Value} {ctx ctx' : Context}
    (unfolds : t.Unfolds u) (known : t.known) (known' : u.known) (holds : w.Represents True v t)
    (holds' : w.Represents True v' u) (models : w.Models e out s) (stored : s.Known)
    (placed : ctx.At e) (placed' : ctx'.At e) :
    (v.evaluate ctx).EndsLike B (fun after after' => after.Alike False False after') e w e
      (v'.evaluate ctx') w := by
  have first : (v.evaluate ctx).RealizesExactly B e out ctx.Silent w (fun fuel => t.evaluate fuel) s
      (World.Represents True) (fun r => r.known) :=
    evaluate_realizesExactly holds known models stored placed
  have second : (v'.evaluate ctx').RealizesExactly B e out ctx'.Silent w
    (fun fuel => t.evaluate fuel) s
      (World.Represents True) (fun r => r.known) :=
    (evaluate_realizesExactly holds' known' models stored placed').congr unfolds.into unfolds.back
      first.locally
  exact first.endsLike second models models stored rfl fun after after' a a' b good here there =>
    World.Matched.alike ⟨b, good, here, there⟩

end Worlds

/-- An environment with the standard rules, an output that is there, and bindings of built-in values
    that remember nothing wrong. -/
structure World.Furnished (w : World H) (e : EnvironmentId) : Prop where
  standard : w.Standard e
  made : e.index < w.environments.size
  opened : w.Opened (w.outputOf e)
  bound : ∀ name v, (w.environment e).lookup name = some v →
    ∃ t : Term, t.known ∧ w.Represents True v t

theorem World.Furnished.exists_store {e : EnvironmentId} (furnished : w.Furnished e) :
    ∃ s : Store, s.Known ∧ w.Models e (w.outputOf e) s := by
  have each : ∀ name, ∃ x : Option Term,
      Option.Rel (w.Represents True) ((w.environment e).lookup name) x ∧
        ∀ t, x = some t → t.known := by
    intro name
    cases found : (w.environment e).lookup name with
    | none => exact ⟨none, .none, nofun⟩
    | some v =>
      obtain ⟨t, known, holds⟩ := furnished.bound name v found
      refine ⟨some t, .some holds, fun u same => ?_⟩
      cases same
      exact known
  choose scope related known using each
  obtain ⟨text, written⟩ := w.exists_written (w.outputOf e)
  have binds : w.Binds e scope := ⟨furnished.standard, furnished.made, related⟩
  exact ⟨⟨scope, text⟩, known, ⟨binds, furnished.opened, rfl, written⟩⟩

/-- Parentheses around the head of a list and its first arguments make no difference, and neither do
    parentheses around what is assigned. Both forms end or neither does: with results of the same
    structure or failures of the same cause, with the same lines written, and with bindings of the
    same structure. -/
theorem parentheses_unobservable {e : EnvironmentId} {ctx ctx' : Context}
    (furnished : w.Furnished e) (placed : ctx.At e) (placed' : ctx'.At e) :
    (∀ (xs ys : List Term) (l l' l'' : Option Location) (flat nested : Value), xs ≠ [] →
      Term.Unmarked (xs ++ ys) → (∀ t ∈ xs ++ ys, t.known) →
      w.Represents True flat (.list (xs ++ ys) l) →
      w.Represents True nested (.list (.list xs l' :: ys) l'') →
      (flat.evaluate ctx).EndsLike B (fun after after' => after.Alike False False after') e w e
        (nested.evaluate ctx') w) ∧
    (∀ (left right : List Term) (m m' l l' l'' : Option Location) (flat nested : Value),
      Term.Unmarked left → right ≠ [] → (∀ t, right = [t] → t.name? ≠ some ⟨":"⟩) →
      (∀ t ∈ left ++ right, t.known) →
      w.Represents True flat (.list (left ++ .name ⟨":"⟩ m :: right) l) →
      w.Represents True nested (.list (left ++ [.name ⟨":"⟩ m', .list right l']) l'') →
      (flat.evaluate ctx).EndsLike B (fun after after' => after.Alike False False after') e w e
        (nested.evaluate ctx') w) := by
  obtain ⟨s, stored, models⟩ := furnished.exists_store
  refine ⟨fun xs ys l l' l'' flat nested filled unmarked known holds holds' => ?_,
    fun left right m m' l l' l'' flat nested unmarked filled other known holds holds' => ?_⟩
  · obtain ⟨front, back⟩ := List.forall_mem_append.mp known
    have inner : (Term.list xs l').known := Term.knownAll_iff.mpr front
    have whole : (Term.list (.list xs l' :: ys) l'').known :=
      Term.knownAll_iff.mpr (List.forall_mem_cons.mpr ⟨inner, back⟩)
    exact (Term.unfolds_head filled unmarked).endsLike (Term.knownAll_iff.mpr known) whole holds
      holds' models stored placed placed'
  · obtain ⟨front, back⟩ := List.forall_mem_append.mp known
    have inner : (Term.list right l').known := Term.knownAll_iff.mpr back
    have bare : (Term.list (left ++ .name ⟨":"⟩ m :: right) l).known :=
      Term.knownAll_iff.mpr (List.forall_mem_append.mpr
        ⟨front, List.forall_mem_cons.mpr ⟨rfl, back⟩⟩)
    have whole : (Term.list (left ++ [.name ⟨":"⟩ m', .list right l']) l'').known :=
      Term.knownAll_iff.mpr (List.forall_mem_append.mpr ⟨front, by simpa using ⟨rfl, inner⟩⟩)
    exact (Term.unfolds_assigned unmarked filled other m m').endsLike bare whole holds holds'
      models stored placed placed'

def groupingWorld : World Host.unit :=
  { World.initial () with
    cells := #[⟨.single Key.name ⟨"macro"⟩ none, []⟩, ⟨.single Key.name ⟨"x"⟩ none, []⟩,
      ⟨.single Key.list ⟨[⟨0⟩, ⟨1⟩]⟩ none, []⟩, ⟨.single Key.list ⟨[⟨0⟩, ⟨1⟩, ⟨1⟩]⟩ none, []⟩,
      ⟨.single Key.list ⟨[⟨2⟩, ⟨1⟩]⟩ none, []⟩, ⟨.single Key.name ⟨":"⟩ none, []⟩,
      ⟨.single Key.list ⟨[⟨1⟩, ⟨5⟩, ⟨0⟩, ⟨1⟩, ⟨1⟩]⟩ none, []⟩,
      ⟨.single Key.list ⟨[⟨1⟩, ⟨5⟩, ⟨3⟩]⟩ none, []⟩, ⟨.single Key.function .definer none, []⟩]
    environments := #[{
      rules := StandardRule.inOrder.map .standard
      bindings := some ⟨[("macro", ⟨8⟩)]⟩ }] }

theorem grouped_macro_alike :
    groupingWorld.Furnished ⟨0⟩ ∧
    ((⟨3⟩ : Value).evaluate ⟨⟨0⟩, .fresh⟩).EndsLike inert
      (fun after after' => after.Alike False False after') ⟨0⟩ groupingWorld ⟨0⟩
      ((⟨4⟩ : Value).evaluate ⟨⟨0⟩, .fresh⟩) groupingWorld ∧
    ((⟨6⟩ : Value).evaluate ⟨⟨0⟩, .fresh⟩).EndsLike inert
      (fun after after' => after.Alike False False after') ⟨0⟩ groupingWorld ⟨0⟩
      ((⟨7⟩ : Value).evaluate ⟨⟨0⟩, .fresh⟩) groupingWorld ∧
    ∃ u after, ((⟨6⟩ : Value).evaluate ⟨⟨0⟩, .fresh⟩).Ends inert groupingWorld (.ok u) after := by
  have definer : groupingWorld.Represents True ⟨8⟩ (.definer none) := .of_read 4 rfl
  have furnished : groupingWorld.Furnished ⟨0⟩ := by
    refine ⟨rfl, by decide, trivial, fun name v found => ⟨.definer none, rfl, ?_⟩⟩
    have entry : ([("macro", (⟨8⟩ : Value))].find? (·.1 == name)).map (·.2) = some v := found
    by_cases same : "macro" = name
    · simp [same] at entry
      subst entry
      exact definer
    · simp [same] at entry
  have x : groupingWorld.Represents True ⟨1⟩ (.name ⟨"x"⟩ none) := .of_read 4 rfl
  have flat : groupingWorld.Represents True ⟨3⟩
      (.list [.name ⟨"macro"⟩ none, .name ⟨"x"⟩ none, .name ⟨"x"⟩ none] none) := .of_read 4 rfl
  have nested : groupingWorld.Represents True ⟨4⟩
      (.list [.list [.name ⟨"macro"⟩ none, .name ⟨"x"⟩ none] none, .name ⟨"x"⟩ none] none) :=
    .of_read 4 rfl
  have assigned : groupingWorld.Represents True ⟨6⟩
      (.list [.name ⟨"x"⟩ none, .name ⟨":"⟩ none, .name ⟨"macro"⟩ none, .name ⟨"x"⟩ none,
        .name ⟨"x"⟩ none] none) := .of_read 4 rfl
  have grouped : groupingWorld.Represents True ⟨7⟩
      (.list [.name ⟨"x"⟩ none, .name ⟨":"⟩ none,
        .list [.name ⟨"macro"⟩ none, .name ⟨"x"⟩ none, .name ⟨"x"⟩ none] none] none) :=
    .of_read 4 rfl
  have placed : (Context.mk ⟨0⟩ .fresh).At ⟨0⟩ := ⟨rfl, rfl, rfl⟩
  obtain ⟨heads, values⟩ := parentheses_unobservable (B := inert) furnished placed placed
  have first := heads [.name ⟨"macro"⟩ none, .name ⟨"x"⟩ none] [.name ⟨"x"⟩ none] none none none ⟨3⟩
    ⟨4⟩ (List.cons_ne_nil _ _) (by decide) (by decide) flat nested
  have second := values [.name ⟨"x"⟩ none]
    [.name ⟨"macro"⟩ none, .name ⟨"x"⟩ none, .name ⟨"x"⟩ none] none none none none none ⟨6⟩ ⟨7⟩
    (by decide) (List.cons_ne_nil _ _) nofun (by decide) assigned grouped
  exact ⟨furnished, first, second, _, _, 12, rfl⟩

end TraitDispatch
