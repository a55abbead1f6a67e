import TraitDispatch.Proofs.Rebuilding

/- How values look that are made of constants, said of their forms alone. No rule, stack or memo
   table has a part in it. Where nothing wrong is remembered, this is how they do look. -/
namespace TraitDispatch
variable {H : Host} {w after : World H} {u v : Value} {n : Node H} {shown other : Value → String}
  {s t : String}

def Node.reference (n : Node H) (shown : Value → String) : String :=
  if let some t := n.form? Key.text then t.text
  else if let some _ := n.form? Key.block then "<block>"
  else if let some l := n.form? Key.list then "(" ++ " ".intercalate (l.items.map shown) ++ ")"
  else if let some m := n.form? Key.name then m.name
  else if let some x := n.form? Key.number then x.text
  else if let some q := n.form? Key.quoted then "'" ++ shown q.inner
  else if let some _ := n.form? Key.definition then "<macro>"
  else if let some _ := n.form? Key.function then "<function>"
  else "<value>"

namespace World

/-- Made of constants throughout: the value has no other instances, and neither have those that it
    holds. They were made before it. -/
inductive Constant (w : World H) : Value → Prop where
  | intro {v : Value} (made : w.Made v) (fixed : ∀ i ∈ (w.node v).instances, i.Fixed)
      (before : ∀ u ∈ (w.node v).parts, u.id < v.id)
      (each : ∀ u ∈ (w.node v).parts, Constant w u) : Constant w v

/-- The rendering of a value by its forms, and by those of the values that it holds. -/
inductive Reference (w : World H) : Value → String → Prop where
  | intro {v : Value} (shown : Value → String)
      (each : ∀ u ∈ (w.node v).parts, Reference w u (shown u)) :
      Reference w v ((w.node v).reference shown)

def Orderly (w : World H) : Prop := ∀ v, w.Constant v → ∃ s, w.Appears v s

end World

theorem reference_of_parts (same : ∀ u ∈ n.parts, shown u = other u) :
    n.reference shown = n.reference other := by
  have items : ∀ l, n.form? Key.list = some l → l.items.map shown = l.items.map other := by
    intro l found
    rw [← answer?_base Key.list rfl] at found
    exact List.map_congr_left fun u member =>
      same u (Node.mem_parts.mpr (.inr (.inl ⟨l, found, member⟩)))
  have inner : ∀ q, n.form? Key.quoted = some q → shown q.inner = other q.inner := by
    intro q found
    rw [← answer?_base Key.quoted rfl] at found
    exact same q.inner (Node.mem_parts.mpr (.inr (.inr ⟨q, found, rfl⟩)))
  unfold Node.reference
  cases list : n.form? Key.list with
  | some l => simp only [items l list]
  | none =>
    cases quoted : n.form? Key.quoted with
    | some q => simp only [inner q quoted]
    | none => rfl

theorem World.Reference.unique (first : w.Reference v s) (second : w.Reference v t) : s = t := by
  induction first generalizing t with
  | intro shown _ ih =>
    cases second with
    | intro other each => exact reference_of_parts fun u part => ih u part (each u part)

theorem World.Reference.of_shown (shown : Value → String)
    (each : ∀ u ∈ (w.node v).parts, w.Reference u (shown u))
    (shows : (w.node v).reference shown = s) : w.Reference v s := by
  rw [← shows]
  exact .intro shown each

theorem look_reference (fixed : ∀ i ∈ n.instances, i.Fixed) : n.look shown = n.reference shown := by
  have rules : StandardRule.forKey Key.text.id = [.blockText, .listText, .nameText, .numberText,
      .quotedText, .definitionText, .functionText] := rfl
  cases own : n.own? Key.text.id with
  | some p =>
    obtain ⟨k, x⟩ := p
    obtain rfl : k = .text := own?_typed fixed rfl own
    simp [Node.look, Node.states, Node.reference, Node.form?, own, shownBy]
  | none =>
    have text : n.form? Key.text = none := by rw [Node.form?, own, Option.bind_none]
    simp only [Node.look, Node.states, own, Option.none_or, rules, List.findSome?_cons,
      List.findSome?_nil, StandardRule.states_text, StandardRule.shows, Node.reference, text,
      answer?_base Key.block rfl, answer?_base Key.list rfl, answer?_base Key.name rfl,
      answer?_base Key.number rfl, answer?_base Key.quoted rfl, answer?_base Key.definition rfl]
    cases n.form? Key.block with
    | some b => rfl
    | none =>
    cases n.form? Key.list with
    | some l => rfl
    | none =>
    cases n.form? Key.name with
    | some m => rfl
    | none =>
    cases n.form? Key.number with
    | some x => rfl
    | none =>
    cases n.form? Key.quoted with
    | some q => rfl
    | none =>
    cases definition : n.form? Key.definition with
    | some m => rfl
    | none =>
    rw [Node.answer?, standard?_function definition, ← Node.form?]
    cases n.form? Key.function <;> rfl

namespace World

theorem Appears.reference (appears : w.Appears v s) : w.Reference v s := by
  induction appears with
  | intro shown _ fixed _ _ ih =>
    rw [look_reference fixed]
    exact .intro shown ih

theorem Constant.made (constant : w.Constant v) : w.Made v := by
  cases constant with
  | intro made => exact made

theorem Constant.fixed (constant : w.Constant v) : ∀ i ∈ (w.node v).instances, i.Fixed := by
  cases constant with
  | intro _ fixed => exact fixed

theorem Constant.before (constant : w.Constant v) (part : w.Part u v) : u.id < v.id := by
  cases constant with
  | intro _ _ before => exact before u part

theorem Constant.part (constant : w.Constant v) (part : w.Part u v) : w.Constant u := by
  cases constant with
  | intro _ _ _ each => exact each u part

theorem Constant.earlier (node : ∀ u, w.Made u → after.node u = w.node u)
    (constant : after.Constant v) (made : w.Made v) : w.Constant v := by
  induction constant with
  | @intro v _ fixed before _ ih =>
    rw [node v made] at fixed before ih
    exact .intro made fixed before fun u part => ih u part (Nat.lt_trans (before u part) made)

theorem Appears.kept (made : ∀ u, w.Made u → after.Made u)
    (node : ∀ u, w.Made u → after.node u = w.node u)
    (memo : ∀ u key, w.Constant u → after.remembered u key = w.remembered u key)
    (constant : w.Constant v) (appears : w.Appears v s) : after.Appears v s := by
  induction appears with
  | @intro v shown here fixed recalls _ ih =>
    have same := node v here
    rw [← same]
    refine .intro shown (made v here) ?_ (fun key answer found => ?_) ?_
    · rw [same]
      exact fixed
    · rw [memo v key constant] at found
      rw [same]
      exact recalls key answer found
    · rw [same]
      exact fun u part => ih u part (constant.part part)

theorem Orderly.of_blank (blank : ∀ v key, w.remembered v key = none) : w.Orderly := by
  intro v constant
  induction constant with
  | @intro v made fixed _ _ ih =>
    obtain ⟨shown, each⟩ := exists_shown ih
    exact ⟨_, .of_blank shown made (blank v) rfl fixed each⟩

theorem Orderly.developed (orderly : w.Orderly) (grown : KeepsLooks w after)
    (size : after.cells.size = w.cells.size) : after.Orderly := by
  intro v constant
  have made : w.Made v := by simpa only [Made, size] using constant.made
  obtain ⟨s, appears⟩ := orderly v (constant.earlier grown.node made)
  exact ⟨s, grown.appears v s appears⟩

theorem Orderly.kept (orderly : w.Orderly) (size : after.cells.size = w.cells.size)
    (node : ∀ u, after.node u = w.node u)
    (memo : ∀ u key, w.Constant u → after.remembered u key = w.remembered u key) :
    after.Orderly := by
  intro v constant
  have made : w.Made v := by simpa only [Made, size] using constant.made
  have constant' := constant.earlier (fun u _ => node u) made
  obtain ⟨s, appears⟩ := orderly v constant'
  refine ⟨s, appears.kept (fun u here => ?_) (fun u _ => node u) memo constant'⟩
  simpa only [Made, size] using here

theorem Orderly.create (orderly : w.Orderly) (n : Node H) : (w.create n).2.Orderly := by
  intro v constant
  have grown : KeepsLooks w (w.create n).2 := .create w n
  have old : ∀ u, (w.create n).2.Constant u → w.Made u → ∃ s, (w.create n).2.Appears u s := by
    intro u constant here
    obtain ⟨s, appears⟩ := orderly u (constant.earlier grown.node here)
    exact ⟨s, grown.appears u s appears⟩
  by_cases made : w.Made v
  · exact old v constant made
  · obtain rfl : v = (w.create n).1 := by
      have bound := constant.made
      obtain ⟨id⟩ := v
      simp only [Made, World.create, Array.size_push, Value.mk.injEq] at bound made ⊢
      omega
    have parts : ∀ u ∈ ((w.create n).2.node (w.create n).1).parts,
        ∃ s, (w.create n).2.Appears u s := fun u part =>
      old u (constant.part part) (constant.before part)
    obtain ⟨shown, each⟩ := exists_shown parts
    exact ⟨_, .of_blank shown constant.made (remembered_new w n) rfl constant.fixed each⟩

end World

structure World.KeepsOrder (w after : World H) : Prop where
  keepsLooks : w.KeepsLooks after
  orderly : w.Orderly → after.Orderly

namespace World

theorem KeepsOrder.remember {key : KeyId} {answer : Payload H}
    (grown : w.KeepsLooks (w.remember v key answer)) : w.KeepsOrder (w.remember v key answer) :=
  ⟨grown, fun orderly => orderly.developed grown (by simp [World.remember])⟩

instance : Growth (KeepsOrder (H := H)) where
  same w := ⟨.same w, id⟩
  trans first second :=
    ⟨first.keepsLooks.trans second.keepsLooks,
      fun orderly => second.orderly (first.orderly orderly)⟩
  made grown := Growth.made grown.keepsLooks
  node grown := Growth.node grown.keepsLooks
  recalls grown := Growth.recalls grown.keepsLooks
  environments grown := grown.keepsLooks.environments
  create w node := ⟨.create w node, fun orderly => orderly.create node⟩
  remember made regular right := .remember (Growth.remember made regular right)

instance : Gains (KeepsOrder (H := H)) := ⟨(·.keepsLooks), .remember⟩

end World

theorem ended_keepsOrder {B : Behaviour H} {ctx : Context} {key : KeyId}
    {r : Except Failure (Option (Payload H))} (appears : w.Appears v s)
    (standard : w.Standard ctx.environment) (bides : ctx.stack.Bides w v key)
    (ended : (Request.resolve v key ctx).Ends B w r after) :
    w.KeepsOrder after ∧ (key.Regular → ∀ a, r = .ok a → a = (w.node v).standard? key) := by
  by_cases busy : ⟨v, key.index⟩ ∈ ctx.stack.active
  · cases memo : w.remembered v key with
    | some answer =>
      obtain ⟨rfl, rfl⟩ := Request.ends_unique ended (.remembered memo ctx)
      refine ⟨World.Growth.same _, fun regular a same => ?_⟩
      cases same
      exact (appears.settled.recalls key regular answer memo).symm
    | none =>
      obtain ⟨failure, refused⟩ := derive_busy busy
      obtain ⟨rfl, rfl⟩ := Request.ends_unique ended (.refused memo refused)
      exact ⟨World.Growth.same _, fun _ => nofun⟩
  · obtain ⟨shown, -, r', after', ends, grown, told⟩ :=
      resolve_amidst (B := B) (R := World.KeepsOrder) appears standard bides busy
    obtain ⟨rfl, rfl⟩ := Program.ends_unique (.resolve ended) ends
    refine ⟨grown, fun regular a same => ?_⟩
    have stated : (w.node v).states shown key = (w.node v).standard? key := states_regular regular
    rw [← stated]
    rcases told with rfl | ⟨-, -, failure, rfl⟩ <;> cases same
    rfl

end TraitDispatch
