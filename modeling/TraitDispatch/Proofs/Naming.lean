import TraitDispatch.Proofs.Lockstep

/- Names that occur in values. What a built-in program makes of values has no names but theirs. -/
namespace TraitDispatch
variable {H : Host} {w after : World H} {v : Value} {e : EnvironmentId} {N : Name → Prop}

namespace Term

mutual

def names : Term → List Name
  | .name n _ => [n]
  | .list items _ => namesAll items
  | .block statements _ => namesRows statements
  | .quoted inner _ => inner.names
  | .definition parameter body _ => parameter.names ++ body.names
  | .definerOf parameter _ => parameter.names
  | .empty _ | .number _ _ | .display _ | .definer _ | .function _ => []

def namesAll : List Term → List Name
  | [] => []
  | t :: rest => t.names ++ namesAll rest

def namesRows : List (List Term) → List Name
  | [] => []
  | row :: rest => namesAll row ++ namesRows rest

end

theorem mem_namesAll {n : Name} {ts : List Term} : n ∈ namesAll ts ↔ ∃ t ∈ ts, n ∈ t.names := by
  induction ts with
  | nil => simp [namesAll]
  | cons t rest ih => simp [namesAll, ih]

theorem mem_namesRows {n : Name} {rows : List (List Term)} :
    n ∈ namesRows rows ↔ ∃ row ∈ rows, ∃ t ∈ row, n ∈ t.names := by
  induction rows with
  | nil => simp [namesRows]
  | cons row rest ih => simp [namesRows, mem_namesAll, ih]

theorem Layer.names_of_part {n : Node H} {t : Term} {parts : List (Value × Term)} {m : Name}
    (layer : Layer n t parts) {p : Value × Term} (member : p ∈ parts) (within : m ∈ p.2.names) :
    m ∈ t.names := by
  cases layer with
  | list l even => exact mem_namesAll.mpr ⟨p.2, (List.of_mem_zip member).2, within⟩
  | block l even =>
    obtain ⟨row, listed, here⟩ := mem_rows member
    exact mem_namesRows.mpr ⟨row, listed, p.2, here, within⟩
  | quoted inner t l | definerOf parameter t l =>
    rw [List.mem_singleton.mp member] at within
    exact within
  | definition parameter body t u l =>
    rw [names, List.mem_append]
    rcases List.mem_cons.mp member with rfl | member
    · exact .inl within
    · rw [List.mem_singleton.mp member] at within
      exact .inr within
  | _ => cases member

theorem Layer.names_own {n : Node H} {t : Term} {parts : List (Value × Term)} {m : Name}
    (layer : Layer n t parts) (own : n.form? Key.name = some m) : m ∈ t.names := by
  cases layer with
  | name m l =>
    cases own
    exact List.mem_singleton_self m
  | _ => cases own

end Term

inductive Node.Over (N : Name → Prop) (p : Value → Prop) : Node H → Prop where
  | empty (l : Option Location) : Over N p (.bare l)
  | name {n : Name} (l : Option Location) (among : N n) : Over N p (.single Key.name n l)
  | list {items : List Value} (l : Option Location) (each : ∀ x ∈ items, p x) :
      Over N p (.single Key.list ⟨items⟩ l)
  | block {rows : List (List Value)} (l : Option Location) (each : ∀ row ∈ rows, ∀ x ∈ row, p x) :
      Over N p (.single Key.block ⟨rows⟩ l)
  | quoted {inner : Value} (l : Option Location) (each : p inner) :
      Over N p (.single Key.quoted ⟨inner⟩ l)
  | definition {parameter body : Value} (l : Option Location) (named : p parameter)
      (each : p body) : Over N p (.single Key.definition ⟨parameter, body⟩ l)
  | definerOf {parameter : Value} (l : Option Location) (each : p parameter) :
      Over N p (.single Key.function (.definerOf parameter) l)

namespace World

def Within (N : Name → Prop) (w : World H) (v : Value) : Prop :=
  ∃ t, w.Bears True v t ∧ ∀ n ∈ t.names, N n

namespace Within

theorem holds (within : w.Within N v) : w.Holds v := by
  obtain ⟨t, bears, -⟩ := within
  exact ⟨t, bears⟩

theorem moved (within : w.Within N v) (moves : w.KeepsBearings e after) : after.Within N v := by
  obtain ⟨t, bears, named⟩ := within
  exact ⟨t, moves.bears v t bears, named⟩

theorem layered (within : w.Within N v) : ∃ t parts, t.known ∧ Term.Layer (w.node v) t parts ∧
    ∀ q ∈ parts, w.Within N q.1 := by
  obtain ⟨t, bears, named⟩ := within
  cases bears with
  | intro known _ _ layer each =>
    exact ⟨t, _, known, layer, fun q member =>
      ⟨q.2, each q member, fun n within => named n (layer.names_of_part member within)⟩⟩

theorem own_name {n : Name} (within : w.Within N v)
    (own : (w.node v).form? Key.name = some n) : N n := by
  obtain ⟨t, bears, named⟩ := within
  cases bears with
  | intro _ _ _ layer _ => exact named n (layer.names_own own)

theorem all {items : List Value} (each : ∀ x ∈ items, w.Within N x) :
    ∃ ts, Term.knownAll ts ∧ List.Forall₂ (w.Bears True) items ts ∧
      ∀ t ∈ ts, ∀ n ∈ t.names, N n := by
  obtain ⟨ts, terms⟩ := forall₂_of_exists
    (S := fun v t => w.Bears True v t ∧ ∀ n ∈ t.names, N n) (List.forall₂_same.mpr each)
  refine ⟨ts, Term.knownAll_iff.mpr ?_, terms.imp fun _ _ here => here.1, ?_⟩
  · exact left_of_forall₂ (terms.flip.imp fun _ _ here => here.1.known)
  · exact left_of_forall₂ (terms.flip.imp fun _ _ here => here.2)

theorem create {node : Node H} (about : node.Over N (w.Within N)) :
    (w.create node).2.Within N (w.create node).1 := by
  cases about with
  | empty l => exact ⟨.empty l, .create rfl (.empty l) nofun, nofun⟩
  | name l among =>
    exact ⟨.name _ l, .create rfl (.name _ l) nofun, fun n member => by
      rwa [List.mem_singleton.mp member]⟩
  | list l each =>
    obtain ⟨ts, known, terms, named⟩ := all each
    obtain ⟨even, bears⟩ := forall₂_iff_pairs.mp terms
    refine ⟨.list ts l, .create known (.list l even) bears, fun n member => ?_⟩
    obtain ⟨t, listed, within⟩ := Term.mem_namesAll.mp member
    exact named t listed n within
  | block l each =>
    obtain ⟨tss, rows⟩ := forall₂_of_exists (S := fun row ts => Term.knownAll ts ∧
      List.Forall₂ (w.Bears True) row ts ∧ ∀ t ∈ ts, ∀ n ∈ t.names, N n)
      (List.forall₂_same.mpr fun row member => all (each row member))
    have known := left_of_forall₂ (rows.flip.imp fun _ _ here => here.1)
    have named := left_of_forall₂ (rows.flip.imp fun _ _ here => here.2.2)
    obtain ⟨even, bears⟩ := forall₂_iff_rows.mp (rows.imp fun _ _ row => row.2.1)
    refine ⟨.block tss l, .create (Term.knownRows_iff.mpr known) (.block l even) bears,
      fun n member => ?_⟩
    obtain ⟨row, listed, t, here, within⟩ := Term.mem_namesRows.mp member
    exact named row listed t here n within
  | quoted l each =>
    obtain ⟨t, bears, named⟩ := each
    exact ⟨.quoted t l, .create bears.known (.quoted _ t l) (by simpa using bears), named⟩
  | definition l parameter body =>
    obtain ⟨t, bears, named⟩ := parameter
    obtain ⟨u, bears', named'⟩ := body
    refine ⟨.definition t u l, .create (Bool.and_eq_true_iff.mpr ⟨bears.known, bears'.known⟩)
      (.definition _ _ t u l) (by simpa using ⟨bears, bears'⟩), fun n member => ?_⟩
    rcases List.mem_append.mp member with first | second
    · exact named n first
    · exact named' n second
  | definerOf l each =>
    obtain ⟨t, bears, named⟩ := each
    exact ⟨.definerOf t l, .create bears.known (.definerOf _ t l) (by simpa using bears), named⟩

end Within

structure Fences (N : Name → Prop) (w : World H) (e : EnvironmentId) : Prop where
  standard : w.Standard e
  made : e.index < w.environments.size
  bound : ∀ name v, (w.environment e).lookup name = some v → w.Within N v

theorem Fences.houses (fences : w.Fences N e) : w.Houses e :=
  ⟨fences.standard, fences.made, fun name v found => (fences.bound name v found).holds⟩

end World
end TraitDispatch
