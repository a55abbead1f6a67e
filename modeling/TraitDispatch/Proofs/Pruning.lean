import TraitDispatch.Proofs.Structure

/- What values come to remember where nesting is limited. A rendering that meets the limit shows a
   placeholder for one of its parts, and the text around the placeholder is remembered like any
   other. All other answers that are remembered are what the standard rules say. -/
namespace TraitDispatch
variable {H : Host} {w mid after : World H} {cut : Prop} {v : Value} {t u : Term}

namespace Term

mutual

/-- How deeply the parts that a rendering shows are nested in one another. -/
def height : Term → Nat
  | .list items _ => heightAll items
  | .quoted inner _ => inner.height + 1
  | _ => 0

def heightAll : List Term → Nat
  | [] => 0
  | t :: rest => max (t.height + 1) (heightAll rest)

end

theorem height_lt_all {ts : List Term} (member : t ∈ ts) : t.height < heightAll ts := by
  induction ts with
  | nil => cases member
  | cons u rest ih =>
    rw [heightAll]
    rcases List.mem_cons.mp member with here | there
    · subst u
      omega
    · have below := ih there
      omega

/-- The text is a rendering of the term. A placeholder can stand for it if it may be lost, and for
    any of its parts if these may be cut out. -/
inductive Displays (cut : Prop) : Prop → Term → String → Prop where
  | lost {lost : Prop} (allowed : lost) (t : Term) : Displays cut lost t placeholder
  | whole {lost : Prop} (t : Term) : Displays cut lost t t.render
  | list {lost : Prop} {ts : List Term} {texts : List String} (l : Option Location)
      (even : ts.length = texts.length) (each : ∀ p ∈ ts.zip texts, Displays cut cut p.1 p.2) :
      Displays cut lost (.list ts l) ("(" ++ " ".intercalate texts ++ ")")
  | quoted {lost : Prop} {t : Term} {shown : String} (l : Option Location)
      (inner : Displays cut cut t shown) : Displays cut lost (.quoted t l) ("'" ++ shown)

theorem texts_eq_map {ts : List Term} {texts : List String} (even : ts.length = texts.length)
    (each : ∀ p ∈ ts.zip texts, p.2 = p.1.render) : texts = ts.map render := by
  induction ts generalizing texts with
  | nil => exact List.length_eq_zero_iff.mp even.symm
  | cons t ts ih =>
    cases texts with
    | nil => cases even
    | cons text texts =>
      have here := each (t, text) (List.mem_cons_self ..)
      have there := ih (Nat.succ.inj even) fun p member => each p (List.mem_cons_of_mem _ member)
      rw [List.map_cons, ← here, ← there]

theorem Displays.exact {lost : Prop} {shown : String} (displays : t.Displays cut lost shown)
    (uncut : ¬ cut) (kept : ¬ lost) : shown = t.render := by
  induction displays with
  | lost allowed => exact absurd allowed kept
  | whole t => rfl
  | list l even _ ih => rw [texts_eq_map even fun p member => ih p member uncut, render,
      renderAll_eq_map]
  | quoted l _ ih => rw [ih uncut, render]

theorem Displays.flat {shown : String} (displays : t.Displays cut False shown)
    (flat : t.height = 0) : shown = t.render := by
  cases displays with
  | lost allowed => exact allowed.elim
  | whole t => rfl
  | @list _ ts texts l even _ =>
    cases ts with
    | nil =>
      obtain rfl := List.length_eq_zero_iff.mp even.symm
      rfl
    | cons t ts =>
      rw [height, heightAll] at flat
      omega
  | quoted l _ => exact absurd flat (Nat.succ_ne_zero _)

theorem Displays.weaken {lost : Prop} {shown : String} (displays : t.Displays cut False shown) :
    t.Displays cut lost shown := by
  cases displays with
  | lost allowed => exact allowed.elim
  | whole t => exact .whole t
  | list l even each => exact .list l even each
  | quoted l inner => exact .quoted l inner

end Term

namespace World

def Recites (cut : Prop) (w : World H) (v : Value) (t : Term) : Prop :=
  ∀ key answer, key.index = Key.text.id.index → w.remembered v key = some answer →
    ∃ text : Text, answer = ⟨.text, text⟩ ∧ t.Displays cut False text.text

/-- The value stands for the term, in which every function is a built-in one. It remembers nothing
    wrong, though it may show placeholders for parts that can be cut out. -/
inductive Bears (cut : Prop) (w : World H) : Value → Term → Prop where
  | intro {v : Value} {t : Term} {parts : List (Value × Term)} (known : t.known)
      (settled : w.Settled v) (recites : w.Recites cut v t)
      (layer : Term.Layer (w.node v) t parts) (each : ∀ p ∈ parts, Bears cut w p.1 p.2) :
      Bears cut w v t

namespace Bears

theorem known (bears : w.Bears cut v t) : t.known := by
  cases bears with
  | intro known => exact known

theorem settled (bears : w.Bears cut v t) : w.Settled v := by
  cases bears with
  | intro _ settled => exact settled

theorem made (bears : w.Bears cut v t) : w.Made v := bears.settled.made

theorem recites (bears : w.Bears cut v t) : w.Recites cut v t := by
  cases bears with
  | intro _ _ recites => exact recites

theorem spells (bears : w.Bears cut v t) : w.Spells False v t := by
  induction bears with
  | intro _ settled _ layer _ ih =>
    exact .intro settled.made (fun impossible => impossible.elim) layer ih

theorem unique {cut' : Prop} (first : w.Bears cut v t) (second : w.Bears cut' v u) : t = u :=
  first.spells.unique second.spells first.known second.known

theorem of_fresh (spells : w.Spells True v t) (known : t.known) : w.Bears cut v t := by
  induction spells with
  | intro made blank layer _ ih =>
    refine .intro known ⟨made, layer.fixed, fun key _ answer found => ?_⟩
      (fun key answer _ found => ?_) layer fun p member => ih p member ?_
    · rw [blank trivial] at found
      cases found
    · rw [blank trivial] at found
      cases found
    · exact layer.known_parts known p member

theorem of_recalls (bears : w.Bears cut v t) (made : ∀ v, w.Made v → after.Made v)
    (node : ∀ v, w.Made v → after.node v = w.node v)
    (recalls : ∀ v key, w.Made v → key.Regular → w.Recalls v key → after.Recalls v key)
    (recites : ∀ v t, w.Bears cut v t → after.Recites cut v t) : after.Bears cut v t := by
  induction bears with
  | @intro v t parts known settled recited layer each ih =>
    have again := recites v t (.intro known settled recited layer each)
    have still : after.Settled v := by
      refine ⟨made v settled.made, ?_, fun key regular =>
        recalls v key settled.made regular (settled.recalls key regular)⟩
      rw [node v settled.made]
      exact settled.fixed
    rw [← node v settled.made] at layer
    exact .intro known still again layer ih

theorem of_memo_eq (bears : w.Bears cut v t) (made : ∀ v, w.Made v → after.Made v)
    (node : ∀ v, w.Made v → after.node v = w.node v)
    (memo : ∀ v key, after.remembered v key = w.remembered v key) : after.Bears cut v t := by
  refine bears.of_recalls made node (fun v key here _ recalls answer found => ?_)
    fun v t holds key answer text found => ?_
  · rw [memo] at found
    rw [node v here]
    exact recalls answer found
  · rw [memo] at found
    exact holds.recites key answer text found

theorem of_cells_eq (bears : w.Bears cut v t) (same : after.cells = w.cells) :
    after.Bears cut v t := by
  refine bears.of_memo_eq (fun v made => ?_) (fun v _ => ?_) fun v key => ?_
  · simpa only [Made, same] using made
  · simp only [World.node, same]
  · simp only [remembered, same]

theorem kept_by_create (bears : w.Bears cut v t) (node : Node H) :
    (w.create node).2.Bears cut v t := by
  have grows : w.KeepsAnswers [] (w.create node).2 := .create w node
  exact bears.of_memo_eq grows.made grows.node (remembered_create w node)

theorem create {node : Node H} {parts : List (Value × Term)} (known : t.known)
    (layer : Term.Layer node t parts) (each : ∀ p ∈ parts, w.Bears cut p.1 p.2) :
    (w.create node).2.Bears cut (w.create node).1 t := by
  refine .intro known (settled_new w layer.fixed) (fun key answer _ found => ?_)
    (by rw [node_new]; exact layer) fun p member => (each p member).kept_by_create node
  rw [remembered_new] at found
  cases found

end Bears

def derived (w : World H) (v : Value) (key : KeyId) : Option (Payload H) :=
  match (w.node v).find? key with
  | some _ => none
  | none => w.remembered v key

/-- A later world that differs in memo tables only, where values bear what they bore. -/
structure LearnsAnswers (cut : Prop) (w after : World H) : Prop
    extends KeepsAllButValues w after where
  cells : after.cells.size = w.cells.size
  node : ∀ v, after.node v = w.node v
  bears : ∀ v t, w.Bears cut v t → after.Bears cut v t

structure LearnsRenderings (cut : Prop) (w after : World H) :
    Prop extends LearnsAnswers cut w after where
  derived : ∀ v key, key.Regular → after.derived v key = w.derived v key

theorem LearnsAnswers.same (w : World H) : LearnsAnswers cut w w :=
  ⟨.same w, rfl, fun _ => rfl, fun _ _ bears => bears⟩

theorem LearnsAnswers.trans (first : LearnsAnswers cut w mid)
    (second : LearnsAnswers cut mid after) :
    LearnsAnswers cut w after where
  toKeepsAllButValues := first.toKeepsAllButValues.trans second.toKeepsAllButValues
  cells := second.cells.trans first.cells
  node v := (second.node v).trans (first.node v)
  bears v t bears := second.bears v t (first.bears v t bears)

theorem LearnsRenderings.same (w : World H) : LearnsRenderings cut w w :=
    ⟨.same w, fun _ _ _ => rfl⟩

theorem LearnsRenderings.trans (first : LearnsRenderings cut w mid)
    (second : LearnsRenderings cut mid after) :
    LearnsRenderings cut w after :=
  ⟨first.toLearnsAnswers.trans second.toLearnsAnswers, fun v key regular =>
    (second.derived v key regular).trans (first.derived v key regular)⟩

theorem LearnsAnswers.remember {key : KeyId} {answer : Payload H}
    (standard : key.Regular → (w.node v).standard? key = some answer)
    (rendering : key.index = Key.text.id.index → ∀ t, w.Bears cut v t →
      ∃ text : Text, answer = ⟨.text, text⟩ ∧ t.Displays cut False text.text) :
    LearnsAnswers cut w (w.remember v key answer) := by
  have node := World.node_remember w v
  refine ⟨.remember w v key answer, by simp [World.remember], fun u => node u key answer,
    fun u t bears => ?_⟩
  refine bears.of_recalls (fun u made => ?_) (fun u _ => node u key answer)
    (fun u other _ regular recalls => recalls.remember standard regular)
    fun u t holds other found text recalled => ?_
  · simpa [Made, World.remember] using made
  · rcases remembered_of_remember recalled with ⟨rfl, index, rfl⟩ | old
    · exact rendering (index ▸ text) t holds
    · exact holds.recites other found text old

theorem derived_remember {key other : KeyId} {answer : Payload H} (made : w.Made v) (u : Value) :
    (w.remember v key answer).derived u other =
      if u = v ∧ other.index = key.index then
        if ((w.node v).find? key).isSome then none else some answer
      else w.derived u other := by
  simp only [World.derived, World.node_remember, remembered_remember w v u key other answer made]
  by_cases same : u = v ∧ other.index = key.index
  · obtain ⟨rfl, index⟩ := same
    rw [Node.find?_congr _ index]
    cases (w.node u).find? key <;> simp [index]
  · rw [if_neg same, if_neg same]

theorem derived_create (w : World H) (node : Node H) (v : Value) (key : KeyId) :
    (w.create node).2.derived v key = w.derived v key := by
  simp only [World.derived, node_create, remembered_create]
  by_cases new : v = (w.create node).1
  · subst new
    rw [if_pos rfl, remembered_unmade (unmade_new w node)]
    cases node.find? key <;> cases (w.node (w.create node).1).find? key <;> rfl
  · rw [if_neg new]

end World
end TraitDispatch
