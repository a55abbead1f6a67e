import TraitDispatch.Proofs.Structure

/- Programs read off a world in which they remember nothing. What can be read is computed, and the
   value is made as the term says that comes out. -/
namespace TraitDispatch
variable {H : Host} {α β : Type} {w : World H}

deriving instance DecidableEq for KeyId, Key

theorem forall₂_of_mapM {f : α → Option β} {xs : List α} {ys : List β}
    (mapped : xs.mapM f = some ys) : List.Forall₂ (fun x y => f x = some y) xs ys := by
  induction xs generalizing ys with
  | nil =>
    cases mapped
    exact .nil
  | cons x xs ih =>
    simp only [List.mapM_cons, Option.bind_eq_bind, Option.bind_eq_some_iff, Option.pure_def,
      Option.some.injEq] at mapped
    obtain ⟨y, here, zs, there, rfl⟩ := mapped
    exact .cons here (ih there)

def Kind.former : (k : Kind) → Option (Key k)
  | .name => some .name
  | .number => some .number
  | .list => some .list
  | .block => some .block
  | .quoted => some .quoted
  | .definition => some .definition
  | .function => some .function
  | _ => none

def Term.ofForm (part : Value → Option Term) (l : Option Location) :
    (k : Kind) → k.Carrier H → Option Term
  | .name, n => some (.name n l)
  | .number, n => some (.number n l)
  | .list, f => (List.mapM part f.items).map (.list · l)
  | .block, f => (List.mapM (List.mapM part) f.statements).map (.block · l)
  | .quoted, f => (part f.inner).map (.quoted · l)
  | .definition, f => (part f.parameter).bind fun p => (part f.body).map (.definition p · l)
  | .function, .display => some (.display l)
  | .function, .definer => some (.definer l)
  | .function, .definerOf parameter => (part parameter).map (.definerOf · l)
  | .function, _ => some (.function l)
  | _, _ => none

theorem Term.layer_of_form {part : Value → Option Term} {l : Option Location} {k : Kind}
    {key : Key k} (former : k.former = some key) {form : k.Carrier H} {t : Term}
    (read : ofForm part l k form = some t) :
    ∃ parts, Layer (.single key form l) t parts ∧ ∀ p ∈ parts, part p.1 = some p.2 := by
  cases k with
  | name =>
    cases former
    cases read
    exact ⟨_, .name form l, nofun⟩
  | number =>
    cases former
    cases read
    exact ⟨_, .number form l, nofun⟩
  | list =>
    cases former
    obtain ⟨ts, items, rfl⟩ := Option.map_eq_some_iff.mp read
    obtain ⟨even, each⟩ := forall₂_iff_pairs.mp (forall₂_of_mapM items)
    exact ⟨_, .list l even, each⟩
  | block =>
    cases former
    obtain ⟨rows, statements, rfl⟩ := Option.map_eq_some_iff.mp read
    obtain ⟨even, each⟩ := forall₂_iff_rows.mp
      ((forall₂_of_mapM statements).imp fun _ _ row => forall₂_of_mapM row)
    exact ⟨_, .block l even, each⟩
  | quoted =>
    cases former
    obtain ⟨u, inner, rfl⟩ := Option.map_eq_some_iff.mp read
    exact ⟨_, .quoted form.inner u l, by simpa using inner⟩
  | definition =>
    cases former
    obtain ⟨p, parameter, read⟩ := Option.bind_eq_some_iff.mp read
    obtain ⟨b, body, rfl⟩ := Option.map_eq_some_iff.mp read
    exact ⟨_, .definition form.parameter form.body p b l, by simpa using ⟨parameter, body⟩⟩
  | function =>
    cases former
    cases form with
    | display =>
      cases read
      exact ⟨_, .display l, nofun⟩
    | definer =>
      cases read
      exact ⟨_, .definer l, nofun⟩
    | definerOf parameter =>
      obtain ⟨u, inner, rfl⟩ := Option.map_eq_some_iff.mp read
      exact ⟨_, .definerOf parameter u l, by simpa using inner⟩
    | _ =>
      cases read
      exact ⟨_, .function _ l, nofun⟩
  | _ => cases former

namespace World
variable {v : Value} {t : Term}

def read? (w : World H) : Nat → Value → Option Term
  | 0, _ => none
  | fuel + 1, v =>
    match w.cells[v.id]? with
    | some ⟨⟨[], l⟩, []⟩ => some (.empty l)
    | some ⟨⟨[⟨k, key, .constant form⟩], l⟩, []⟩ =>
      if k.former = some key then Term.ofForm (w.read? fuel) l k form else none
    | _ => none

theorem Spells.of_read (fuel : Nat) (read : w.read? fuel v = some t) : w.Spells True v t := by
  induction fuel generalizing v t with
  | zero => cases read
  | succ fuel ih =>
    have layered : ∀ n, w.cells[v.id]? = some ⟨n, []⟩ → ∀ parts, Term.Layer n t parts →
        (∀ p ∈ parts, w.read? fuel p.1 = some p.2) → w.Spells True v t := by
      intro n cell parts layer each
      have node : w.node v = n := by simp only [World.node, cell]
      refine .intro (Array.getElem?_eq_some_iff.mp cell).1 (fun _ key => ?_) (node ▸ layer)
        fun p member => ih (each p member)
      simp [remembered, cell]
    rw [read?] at read
    split at read
    · rename_i l cell
      cases read
      exact layered _ cell _ (.empty l) fun p member => absurd member List.not_mem_nil
    · rename_i k key form l cell
      split at read
      · rename_i former
        obtain ⟨parts, layer, each⟩ := Term.layer_of_form former read
        exact layered _ cell parts layer each
      · cases read
    · cases read

theorem Represents.of_read {exact : Prop} (fuel : Nat) (read : w.read? fuel v = some t) :
    w.Represents exact v t :=
  (Spells.of_read fuel read).represents

end World
end TraitDispatch
