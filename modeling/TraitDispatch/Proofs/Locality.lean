import TraitDispatch.Proofs.DirectEvaluation

/- Programs in which every function is one of the built-in ones. Evaluation does not bring in any
   other, and nothing it does depends on what was written before it: it only adds to that. -/
namespace TraitDispatch
variable {α β : Type}

namespace Term

mutual

def known : Term → Bool
  | .list items _ => knownAll items
  | .block statements _ => knownRows statements
  | .quoted inner _ => inner.known
  | .definition parameter body _ => parameter.known && body.known
  | .definerOf parameter _ => parameter.known
  | .function _ => false
  | _ => true

def knownAll : List Term → Bool
  | [] => true
  | t :: rest => t.known && knownAll rest

def knownRows : List (List Term) → Bool
  | [] => true
  | row :: rest => knownAll row && knownRows rest

end

theorem knownAll_iff {ts : List Term} : knownAll ts ↔ ∀ t ∈ ts, t.known := by
  induction ts with
  | nil => simp [knownAll]
  | cons t rest ih => simp [knownAll, ih]

theorem knownRows_iff {rows : List (List Term)} : knownRows rows ↔ ∀ row ∈ rows, knownAll row := by
  induction rows with
  | nil => simp [knownRows]
  | cons row rest ih => simp [knownRows, ih]

section Substitution
variable {named : Option Name} {r : Term}

mutual

theorem known_substitute (replaced : r.known) (t : Term) (known : t.known) :
    (t.substitute named r).known := by
  cases t with
  | name n l =>
    rw [substitute]
    split
    · exact replaced
    · rfl
  | list items l => exact knownAll_substitute replaced items known
  | block statements l => exact knownRows_substitute replaced statements known
  | quoted inner l => exact known_substitute replaced inner known
  | _ => exact known

theorem knownAll_substitute (replaced : r.known) (ts : List Term) (known : knownAll ts) :
    knownAll (substituteAll ts named r) := by
  cases ts with
  | nil => rfl
  | cons t rest =>
    rw [knownAll, Bool.and_eq_true] at known
    rw [substituteAll, knownAll, Bool.and_eq_true]
    exact ⟨known_substitute replaced t known.1, knownAll_substitute replaced rest known.2⟩

theorem knownRows_substitute (replaced : r.known) (rows : List (List Term))
    (known : knownRows rows) : knownRows (substituteRows rows named r) := by
  cases rows with
  | nil => rfl
  | cons row rest =>
    rw [knownRows, Bool.and_eq_true] at known
    rw [substituteRows, knownRows, Bool.and_eq_true]
    exact ⟨knownAll_substitute replaced row known.1, knownRows_substitute replaced rest known.2⟩

end

end Substitution

theorem known_grouped {ts : List Term} (known : knownAll ts) : (grouped ts).known := by
  unfold grouped
  split
  · rename_i t
    exact knownAll_iff.mp known t (List.mem_singleton_self t)
  · exact known

theorem known_split {ts left right : List Term} (known : knownAll ts)
    (split : splitMark ts = some (left, right)) : knownAll left ∧ knownAll right := by
  induction ts generalizing left right with
  | nil => cases split
  | cons t rest ih =>
    rw [knownAll, Bool.and_eq_true] at known
    rw [splitMark] at split
    by_cases mark : t.name? = some ⟨":"⟩
    · rw [if_pos mark] at split
      cases split
      exact ⟨rfl, known.2⟩
    · rw [if_neg mark] at split
      obtain ⟨⟨before, behind⟩, found, same⟩ := Option.map_eq_some_iff.mp split
      cases same
      obtain ⟨earlier, later⟩ := ih known.2 found
      exact ⟨by rw [knownAll, known.1, earlier]; rfl, later⟩

end Term

def Store.Known (s : Store) : Prop := ∀ name t, s.scope name = some t → t.known

theorem Store.Known.define {s : Store} {t : Term} (known : s.Known) (name : String)
    (held : t.known) : (s.define name t).Known := by
  intro other u found
  simp only [Store.define] at found
  split at found
  · cases found
    exact held
  · exact known other u found

theorem Store.Known.defineAll {s : Store} {bindings : List (String × Term)} (known : s.Known)
    (each : ∀ b ∈ bindings, b.2.known) : (s.defineAll bindings).Known := by
  induction bindings generalizing s with
  | nil => exact known
  | cons entry rest ih =>
    exact ih (known.define entry.1 (each entry (List.mem_cons_self ..))) fun b member =>
      each b (List.mem_cons_of_mem _ member)

theorem Store.known_initial (output : String) {bindings : List (String × Term)}
    (each : ∀ b ∈ bindings, b.2.known) : (Store.initial output bindings).Known := by
  have none : (⟨fun _ => none, output⟩ : Store).Known := fun _ _ found => nomatch found
  exact (none.defineAll (by simp [Term.known])).defineAll each

namespace Direct

def Local (good : α → Prop) (d : Direct α) : Prop :=
  ∀ s outcome s', s.Known → d s = some (outcome, s') →
    (∀ a, outcome = .ok a → good a) ∧ s'.Known ∧ ∃ added, s'.output = s.output ++ added ∧
      ∀ before, d { s with output := before } =
        some (outcome, { s' with output := before ++ added })

variable {good : α → Prop} {next : β → Prop} {d : Direct α}

theorem local_pure {a : α} (holds : good a) : Local good (pure a : Direct α) := by
  intro s outcome s' known ran
  cases ran
  refine ⟨fun b same => ?_, known, "", by simp, fun before => by simp [pure]⟩
  cases same
  exact holds

theorem local_fail (cause : Cause) : Local good (fail cause : Direct α) := by
  intro s outcome s' known ran
  cases ran
  exact ⟨fun _ same => (nomatch same), known, "", by simp, fun before => by simp [fail]⟩

theorem local_diverge : Local good (diverge : Direct α) := by
  intro s outcome s' known ran
  cases ran

theorem local_lookup (name : String) : Local (fun t => t.known) (lookup name) := by
  intro s outcome s' known ran
  unfold lookup at ran
  cases found : s.scope name with
  | some t =>
    rw [found] at ran
    cases ran
    refine ⟨fun u same => ?_, known, "", by simp, fun before => by simp [lookup, found]⟩
    cases same
    exact known name t found
  | none =>
    rw [found] at ran
    cases ran
    exact ⟨fun _ same => (nomatch same), known, "", by simp, fun before => by simp [lookup, found]⟩

theorem local_define {t : Term} (held : t.known) (name : String) :
    Local (fun _ => True) (define name t) := by
  intro s outcome s' known ran
  cases ran
  exact ⟨fun _ _ => trivial, known.define name held, "", by simp [Store.define],
    fun before => by simp [define, Store.define]⟩

theorem local_print (line : String) : Local (fun _ => True) (print line) := by
  intro s outcome s' known ran
  cases ran
  exact ⟨fun _ _ => trivial, known, line ++ "\n", by simp [Store.print, String.append_assoc],
    fun before => by simp [print, Store.print, String.append_assoc]⟩

theorem Local.bind {f : α → Direct β} (first : d.Local good)
    (rest : ∀ a, good a → (f a).Local next) : (d >>= f).Local next := by
  intro s outcome s' known ran
  rcases begun : d s with _ | ⟨_ | a, s₁⟩
  · rw [bind_none begun] at ran
    cases ran
  · rw [bind_error begun] at ran
    cases ran
    obtain ⟨-, known', added, adds, again⟩ := first s _ _ known begun
    exact ⟨fun _ same => (nomatch same), known', added, adds,
      fun before => bind_error (again before)⟩
  · rw [bind_ok begun] at ran
    obtain ⟨holds, known₁, added₁, adds₁, again₁⟩ := first s _ _ known begun
    obtain ⟨holds', known', added, adds, again⟩ := rest a (holds a rfl) s₁ _ _ known₁ ran
    refine ⟨holds', known', added₁ ++ added, ?_, fun before => ?_⟩
    · rw [adds, adds₁, String.append_assoc]
    · rw [bind_ok (again₁ before), again, String.append_assoc]

end Direct

namespace Term
section Local
variable {self : Term → Direct Term} (each : ∀ t : Term, t.known → (self t).Local fun u => u.known)
include each

theorem operand_local {t : Term} (known : t.known) : (t.operand self).Local fun u => u.known := by
  unfold operand
  split
  · exact each t known
  · exact Direct.local_pure known

theorem assign_local {left right : List Term} (source : knownAll right) :
    (assign self left right).Local fun u => u.known := by
  unfold assign
  split
  · exact Direct.local_fail _
  · refine (operand_local each (known_grouped source)).bind fun value held => ?_
    split
    · exact (Direct.local_define held _).bind fun _ _ => Direct.local_pure rfl
    · exact Direct.local_fail _

theorem call_local {f argument : Term} (known : f.known) (held : argument.known) :
    (call self f argument).Local fun u => u.known := by
  cases f with
  | display l =>
    exact (operand_local each held).bind fun value _ =>
      (Direct.local_print _).bind fun _ _ => Direct.local_pure rfl
  | definer l => exact Direct.local_pure held
  | definerOf parameter l =>
    exact Direct.local_pure (Bool.and_eq_true_iff.mpr ⟨known, held⟩)
  | definition parameter body l =>
    refine (operand_local each held).bind fun replacement held' => ?_
    have within := (Bool.and_eq_true_iff.mp known).2
    split
    · exact operand_local each (known_substitute held' body within)
    · exact Direct.local_fail _
  | function l => exact Direct.local_diverge
  | _ => exact Direct.local_fail _

theorem callAll_local {f : Term} {arguments : List Term} (known : f.known)
    (held : knownAll arguments) : (callAll self f arguments).Local fun u => u.known := by
  induction arguments generalizing f with
  | nil => exact Direct.local_pure known
  | cons argument rest ih =>
    rw [knownAll, Bool.and_eq_true] at held
    exact (call_local each known held.1).bind fun g known' => ih known' held.2

theorem apply_local {items : List Term} (known : knownAll items) :
    (apply self items).Local fun u => u.known := by
  unfold apply
  split
  · rename_i left right split
    exact assign_local each (known_split known split).2
  · cases items with
    | nil => exact Direct.local_pure rfl
    | cons head arguments =>
      rw [knownAll, Bool.and_eq_true] at known
      exact (operand_local each known.1).bind fun f known' => callAll_local each known' known.2

theorem runStatements_local {result : Term} {statements : List (List Term)}
    (known : result.known) (held : knownRows statements) :
    (runStatements self result statements).Local fun u => u.known := by
  induction statements generalizing result with
  | nil => exact Direct.local_pure known
  | cons statement rest ih =>
    rw [knownRows, Bool.and_eq_true] at held
    exact (each (listed statement) held.1).bind fun u known' => ih known' held.2

end Local

theorem evaluate_local (fuel : Nat) {t : Term} (known : t.known) :
    (t.evaluate fuel).Local fun u => u.known := by
  induction fuel generalizing t with
  | zero => exact Direct.local_diverge
  | succ fuel ih =>
    cases t with
    | name n l => exact Direct.local_lookup _
    | quoted inner l => exact Direct.local_pure known
    | block statements l => exact runStatements_local (fun _ => ih) rfl known
    | list items l => exact apply_local (fun _ => ih) known
    | _ => exact Direct.local_fail _

end Term
end TraitDispatch
