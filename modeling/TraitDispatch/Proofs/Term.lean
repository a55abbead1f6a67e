import Mathlib.Data.List.Forall2
import TraitDispatch.Standard.Rules

/- Programs as syntax trees, apart from handles, rules and worlds. A tree says of every value what
   the standard forms hold of it and where it stands. -/
namespace TraitDispatch
variable {H : Host}

inductive Term where
  | empty (location : Option Location)
  | name (name : Name) (location : Option Location)
  | number (number : Number) (location : Option Location)
  | list (items : List Term) (location : Option Location)
  | block (statements : List (List Term)) (location : Option Location)
  | quoted (inner : Term) (location : Option Location)
  | definition (parameter body : Term) (location : Option Location)
  | display (location : Option Location)
  | definer (location : Option Location)
  | definerOf (parameter : Term) (location : Option Location)
  | function (location : Option Location)

namespace Term

def location : Term → Option Location
  | .empty l | .name _ l | .number _ l | .list _ l | .block _ l | .quoted _ l | .definition _ _ l
  | .display l | .definer l | .definerOf _ l | .function l => l

def listed (ts : List Term) : Term := .list ts (ts.head?.bind location)

mutual

def render : Term → String
  | .empty _ => placeholder
  | .name n _ => n.name
  | .number n _ => n.text
  | .list items _ => "(" ++ " ".intercalate (renderAll items) ++ ")"
  | .block _ _ => "<block>"
  | .quoted inner _ => "'" ++ inner.render
  | .definition _ _ _ => "<macro>"
  | .display _ | .definer _ | .definerOf _ _ | .function _ => "<function>"

def renderAll : List Term → List String
  | [] => []
  | t :: rest => t.render :: renderAll rest

end

theorem renderAll_eq_map (ts : List Term) : renderAll ts = ts.map render := by
  induction ts with
  | nil => rfl
  | cons t rest ih => rw [renderAll, List.map_cons, ih]

mutual

def depth : Term → Nat
  | .list items _ => depthAll items + 1
  | .quoted inner _ => inner.depth + 1
  | _ => 0

def depthAll : List Term → Nat
  | [] => 0
  | t :: rest => max t.depth (depthAll rest)

end

theorem depthAll_eq_foldr (ts : List Term) : depthAll ts = (ts.map depth).foldr max 0 := by
  induction ts with
  | nil => rfl
  | cons t rest ih => rw [depthAll, List.map_cons, List.foldr_cons, ih]

theorem depth_le_all {t : Term} {ts : List Term} (member : t ∈ ts) : t.depth ≤ depthAll ts := by
  induction ts with
  | nil => cases member
  | cons u rest ih =>
    rw [depthAll]
    rcases List.mem_cons.mp member with here | there
    · subst u
      exact Nat.le_max_left _ _
    · have below := ih there
      omega

def isSyntax : Term → Bool
  | .name _ _ | .list _ _ | .block _ _ | .quoted _ _ => true
  | _ => false

mutual

def substitute (t : Term) (named : Option Name) (replacement : Term) : Term :=
  match t with
  | .name n l => if named = some n then replacement else .name n l
  | .list items l => .list (substituteAll items named replacement) l
  | .block statements l => .block (substituteRows statements named replacement) l
  | .quoted inner l => .quoted (inner.substitute named replacement) l
  | other => other

def substituteAll (ts : List Term) (named : Option Name) (replacement : Term) : List Term :=
  match ts with
  | [] => []
  | t :: rest => t.substitute named replacement :: substituteAll rest named replacement

def substituteRows (rows : List (List Term)) (named : Option Name) (replacement : Term) :
    List (List Term) :=
  match rows with
  | [] => []
  | row :: rest => substituteAll row named replacement :: substituteRows rest named replacement

end

theorem substituteAll_eq_map (ts : List Term) (named : Option Name) (replacement : Term) :
    substituteAll ts named replacement = ts.map (·.substitute named replacement) := by
  induction ts with
  | nil => rfl
  | cons t rest ih => rw [substituteAll, List.map_cons, ih]

theorem substituteRows_eq_map (rows : List (List Term)) (named : Option Name)
    (replacement : Term) :
    substituteRows rows named replacement =
      rows.map fun row => row.map (·.substitute named replacement) := by
  induction rows with
  | nil => rfl
  | cons row rest ih => rw [substituteRows, List.map_cons, ih, substituteAll_eq_map]

theorem substitute_of_not_syntax {t : Term} (named : Option Name) (replacement : Term)
    (other : t.isSyntax = false) : t.substitute named replacement = t := by
  cases t <;> first
    | rfl
    | cases other

/-- The value with the node stands for the term if its parts stand for theirs. -/
inductive Layer : Node H → Term → List (Value × Term) → Prop where
  | empty (l : Option Location) : Layer (.bare l) (.empty l) []
  | name (n : Name) (l : Option Location) : Layer (.single Key.name n l) (.name n l) []
  | number (n : Number) (l : Option Location) : Layer (.single Key.number n l) (.number n l) []
  | list {items : List Value} {ts : List Term} (l : Option Location)
      (even : items.length = ts.length) :
      Layer (.single Key.list ⟨items⟩ l) (.list ts l) (items.zip ts)
  | block {statements : List (List Value)} {rows : List (List Term)} (l : Option Location)
      (even : statements.map List.length = rows.map List.length) :
      Layer (.single Key.block ⟨statements⟩ l) (.block rows l)
        (List.zipWith List.zip statements rows).flatten
  | quoted (inner : Value) (t : Term) (l : Option Location) :
      Layer (.single Key.quoted ⟨inner⟩ l) (.quoted t l) [(inner, t)]
  | definition (parameter body : Value) (t u : Term) (l : Option Location) :
      Layer (.single Key.definition ⟨parameter, body⟩ l) (.definition t u l)
        [(parameter, t), (body, u)]
  | display (l : Option Location) : Layer (.single Key.function .display l) (.display l) []
  | definer (l : Option Location) : Layer (.single Key.function .definer l) (.definer l) []
  | definerOf (parameter : Value) (t : Term) (l : Option Location) :
      Layer (.single Key.function (.definerOf parameter) l) (.definerOf t l) [(parameter, t)]
  | function (f : Function H.Code) (l : Option Location) :
      Layer (.single Key.function f l) (.function l) []

theorem map_eq_of_zip {γ : Type} {f : Term → γ} {xs : List Value} {ts us : List Term}
    (left : xs.length = ts.length) (right : xs.length = us.length)
    (agree : ∀ p ∈ xs.zip ts, ∀ q ∈ xs.zip us, p.1 = q.1 → f p.2 = f q.2) :
    ts.map f = us.map f := by
  induction xs generalizing ts us with
  | nil => rw [List.length_eq_zero_iff.mp left.symm, List.length_eq_zero_iff.mp right.symm]
  | cons x xs ih =>
    cases ts with
    | nil => cases left
    | cons t ts =>
      cases us with
      | nil => cases right
      | cons u us =>
        have here := agree (x, t) (List.mem_cons_self ..) (x, u) (List.mem_cons_self ..) rfl
        have there := ih (Nat.succ.inj left) (Nat.succ.inj right) fun p member q member' =>
          agree p (List.mem_cons_of_mem _ member) q (List.mem_cons_of_mem _ member')
        rw [List.map_cons, List.map_cons, here, there]

theorem Layer.same_look {n : Node H} {t u : Term} {parts others : List (Value × Term)}
    (first : Layer n t parts) (second : Layer n u others)
    (agree : ∀ p ∈ parts, ∀ q ∈ others, p.1 = q.1 →
      p.2.render = q.2.render ∧ p.2.depth = q.2.depth) :
    t.render = u.render ∧ t.depth = u.depth := by
  cases first with
  | list l left =>
    cases second with
    | list _ right =>
      constructor
      · have texts := map_eq_of_zip left right fun p member q member' same =>
          (agree p member q member' same).1
        rw [render, render, renderAll_eq_map, renderAll_eq_map, texts]
      · have depths := map_eq_of_zip left right fun p member q member' same =>
          (agree p member q member' same).2
        rw [depth, depth, depthAll_eq_foldr, depthAll_eq_foldr, depths]
  | quoted inner t l =>
    cases second with
    | quoted _ u _ =>
      have same := agree (inner, t) (List.mem_singleton_self _) (inner, u)
        (List.mem_singleton_self _) rfl
      rw [render, render, depth, depth, same.1, same.2]
      exact ⟨rfl, rfl⟩
  | _ => cases second <;> exact ⟨rfl, rfl⟩

end Term

section Pairing
variable {α β : Type} {R : α → β → Prop}

theorem forall₂_iff_pairs {xs : List α} {ys : List β} :
    List.Forall₂ R xs ys ↔ xs.length = ys.length ∧ ∀ p ∈ xs.zip ys, R p.1 p.2 := by
  rw [List.forall₂_iff_zip]
  exact ⟨fun h => ⟨h.1, fun p member => h.2 member⟩, fun h => ⟨h.1, fun member => h.2 _ member⟩⟩

theorem forall₂_iff_rows {xss : List (List α)} {yss : List (List β)} :
    List.Forall₂ (List.Forall₂ R) xss yss ↔ xss.map List.length = yss.map List.length ∧
      ∀ p ∈ (List.zipWith List.zip xss yss).flatten, R p.1 p.2 := by
  induction xss generalizing yss with
  | nil => cases yss <;> simp
  | cons xs xss ih =>
    cases yss with
    | nil => simp
    | cons ys yss =>
      rw [List.forall₂_cons, ih, forall₂_iff_pairs]
      simp only [List.map_cons, List.cons.injEq, List.zipWith_cons_cons, List.flatten_cons,
        List.mem_append, or_imp, forall_and]
      exact ⟨fun h => ⟨⟨h.1.1, h.2.1⟩, h.1.2, h.2.2⟩, fun h => ⟨⟨h.1.1, h.2.1⟩, h.1.2, h.2.2⟩⟩

theorem forall₂_of_exists {γ : Type} {S : α → γ → Prop} {xs : List α} {ys : List β}
    (each : List.Forall₂ (fun x _ => ∃ z, S x z) xs ys) : ∃ zs, List.Forall₂ S xs zs := by
  induction each with
  | nil => exact ⟨[], .nil⟩
  | cons here _ ih =>
    obtain ⟨z, here⟩ := here
    obtain ⟨zs, there⟩ := ih
    exact ⟨z :: zs, .cons here there⟩

end Pairing

end TraitDispatch
