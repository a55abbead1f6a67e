import TraitDispatch.Proofs.Locality
import TraitDispatch.Proofs.Representation

/- The structure of values, apart from what they remember. Values in different worlds have the same
   structure if one term says what both are made of. -/
namespace TraitDispatch
variable {H : Host} {α β γ : Type} {w w' : World H}

theorem forall₂_trans {R : α → β → Prop} {P : β → γ → Prop} {Q : α → γ → Prop}
    {xs : List α} {ys : List β} {zs : List γ} (step : ∀ a b c, R a b → P b c → Q a c)
    (first : List.Forall₂ R xs ys) (second : List.Forall₂ P ys zs) : List.Forall₂ Q xs zs := by
  induction first generalizing zs with
  | nil =>
    cases second
    exact .nil
  | cons here _ ih =>
    cases second with
    | cons there rest => exact .cons (step _ _ _ here there) (ih rest)

theorem left_of_forall₂ {P : α → Prop} {xs : List α} {ys : List β}
    (all : List.Forall₂ (fun x _ => P x) xs ys) : ∀ x ∈ xs, P x := by
  induction all with
  | nil => exact nofun
  | cons here _ ih => exact List.forall_mem_cons.mpr ⟨here, ih⟩

theorem forall₂_unique {R S : α → β → Prop} {xs : List α} {ys zs : List β}
    (first : List.Forall₂ R xs ys) (second : List.Forall₂ S xs zs)
    (same : ∀ x y z, R x y → S x z → y = z) : ys = zs := by
  induction first generalizing zs with
  | nil =>
    cases second
    rfl
  | cons here _ ih =>
    obtain ⟨z, zs, here', there', rfl⟩ := List.forall₂_cons_left_iff.mp second
    rw [same _ _ _ here here', ih there']

theorem mem_rows {xss : List (List α)} {yss : List (List β)} {p : α × β}
    (member : p ∈ (List.zipWith List.zip xss yss).flatten) : ∃ ys ∈ yss, p.2 ∈ ys := by
  induction xss generalizing yss with
  | nil => simp at member
  | cons xs xss ih =>
    cases yss with
    | nil => simp at member
    | cons ys yss =>
      rw [List.zipWith_cons_cons, List.flatten_cons, List.mem_append] at member
      rcases member with here | there
      · exact ⟨ys, List.mem_cons_self .., (List.of_mem_zip here).2⟩
      · obtain ⟨zs, later, within⟩ := ih there
        exact ⟨zs, List.mem_cons_of_mem _ later, within⟩

namespace Term
variable {n : Node H} {t u : Term} {parts others : List (Value × Term)}

theorem Layer.known_parts (layer : Layer n t parts) (known : t.known) : ∀ p ∈ parts, p.2.known := by
  intro p member
  cases layer with
  | list l even => exact knownAll_iff.mp known p.2 (List.of_mem_zip member).2
  | block l even =>
    obtain ⟨row, listed, within⟩ := mem_rows member
    exact knownAll_iff.mp (knownRows_iff.mp known row listed) p.2 within
  | quoted inner t l =>
    rw [List.mem_singleton.mp member]
    exact known
  | definerOf parameter t l =>
    rw [List.mem_singleton.mp member]
    exact known
  | definition parameter body t u l =>
    have both := Bool.and_eq_true_iff.mp known
    rcases List.mem_cons.mp member with rfl | member
    · exact both.1
    · rw [List.mem_singleton.mp member]
      exact both.2
  | _ => cases member

theorem Layer.unique (first : Layer n t parts) (second : Layer n u others) (known : t.known)
    (known' : u.known)
    (agree : ∀ x a b, (x, a) ∈ parts → (x, b) ∈ others → a = b) : t = u := by
  cases first with
  | list l even =>
    cases second with
    | list _ even' =>
      rw [forall₂_unique (forall₂_iff_pairs.mpr ⟨even, fun p member => member⟩)
        (forall₂_iff_pairs.mpr ⟨even', fun p member => member⟩) agree]
  | block l even =>
    cases second with
    | block _ even' =>
      rw [forall₂_unique (forall₂_iff_rows.mpr ⟨even, fun p member => member⟩)
        (forall₂_iff_rows.mpr ⟨even', fun p member => member⟩)
        fun _ _ _ row row' => forall₂_unique row row' agree]
  | quoted inner t l =>
    cases second with
    | quoted _ u _ => rw [agree inner t u (by simp) (by simp)]
  | definition parameter body p b l =>
    cases second with
    | definition _ _ q c _ =>
      rw [agree parameter p q (by simp) (by simp), agree body b c (by simp) (by simp)]
  | definerOf parameter t l =>
    cases second with
    | definerOf _ u _ => rw [agree parameter t u (by simp) (by simp)]
    | function f _ => cases known'
  | function f l => cases known
  | _ => cases second <;> first
    | rfl
    | cases known'

theorem Layer.each_item {p : Value → Prop} {items : List Value} {ts : List Term}
    (even : items.length = ts.length)
    (each : ∀ q ∈ items.zip ts, p q.1) : ∀ x ∈ items, p x :=
  left_of_forall₂ (forall₂_iff_pairs.mpr ⟨even, each⟩)

theorem Layer.each_statement {p : Value → Prop} {statements : List (List Value)}
    {rows : List (List Term)} (even : statements.map List.length = rows.map List.length)
    (each : ∀ q ∈ (List.zipWith List.zip statements rows).flatten, p q.1) :
    ∀ row ∈ statements, ∀ x ∈ row, p x :=
  left_of_forall₂ ((forall₂_iff_rows.mpr ⟨even, each⟩).imp fun _ _ row => left_of_forall₂ row)

theorem Layer.parts_unique (first : Layer n t parts) (second : Layer n t others) :
    parts = others := by
  cases first <;> cases second <;> rfl

end Term

namespace World

/-- The value and all that it holds are made as the term says. Whether they may remember anything
    is left open. -/
inductive Spells (fresh : Prop) (w : World H) : Value → Term → Prop where
  | intro {v : Value} {t : Term} {parts : List (Value × Term)} (made : w.Made v)
      (blank : fresh → ∀ key, w.remembered v key = none) (layer : Term.Layer (w.node v) t parts)
      (each : ∀ p ∈ parts, Spells fresh w p.1 p.2) : Spells fresh w v t

variable {fresh other exact : Prop} {v : Value} {t u : Term}

theorem Represents.spells (holds : w.Represents exact v t) : w.Spells False v t := by
  induction holds with
  | intro settled _ layer _ ih =>
    exact .intro settled.made (fun impossible => impossible.elim) layer ih

theorem Spells.represents (spells : w.Spells True v t) : w.Represents exact v t := by
  induction spells with
  | intro made blank layer _ ih => exact .of_blank made (blank trivial) layer ih

theorem Spells.unique (first : w.Spells fresh v t) (second : w.Spells other v u) (known : t.known)
    (known' : u.known) : t = u := by
  induction first generalizing u with
  | intro _ _ layer _ ih =>
    cases second with
    | intro _ _ layer' each' =>
      exact layer.unique layer' known known' fun x a b member member' =>
        ih (x, a) member (each' (x, b) member') (layer.known_parts known _ member)
          (layer'.known_parts known' _ member')

/-- The values have the same structure and locations throughout, and every function in them is
    a built-in one. -/
def Alike (fresh fresh' : Prop) (w w' : World H) (v v' : Value) : Prop :=
  ∃ t : Term, t.known ∧ w.Spells fresh v t ∧ w'.Spells fresh' v' t

theorem Alike.trans {mid after : World H} {u v v' : Value} {fresh' : Prop}
    (first : w.Alike fresh False mid u v) (second : mid.Alike False fresh' after v v') :
    w.Alike fresh fresh' after u v' := by
  obtain ⟨t, known, here, there⟩ := first
  obtain ⟨s, known', here', there'⟩ := second
  obtain rfl := there.unique here' known known'
  exact ⟨t, known, here, there'⟩

/-- The same where whatever either of the values remembers is right. -/
def Matched (w w' : World H) (v v' : Value) : Prop :=
  ∃ t : Term, t.known ∧ w.Represents True v t ∧ w'.Represents True v' t

theorem Alike.matched {v' : Value} (copies : w.Alike True True w' v v') : w.Matched w' v v' := by
  obtain ⟨t, known, spells, spells'⟩ := copies
  exact ⟨t, known, spells.represents, spells'.represents⟩

theorem Matched.alike {v' : Value} (matched : w.Matched w' v v') : w.Alike False False w' v v' := by
  obtain ⟨t, known, holds, holds'⟩ := matched
  exact ⟨t, known, holds.spells, holds'.spells⟩

end World
end TraitDispatch
