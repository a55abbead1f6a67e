import TraitDispatch.Proofs.Counterparts

/- The evaluation of a block that was just made, up to its first statement. Whether there is room
   for it depends on the limit and on whether entries are recorded, but not on what the block
   consists of, and nothing is left of it but what the block remembers. -/
namespace TraitDispatch
variable {H : Host} {B : Behaviour H} {e : EnvironmentId} {w mid after : World H} {v : Value}
  {b : Block} {l : Option Location} {ctx : Context} {k : Kind}

namespace World

structure TouchesMemo (v : Value) (w after : World H) : Prop extends KeepsSurroundings w after where
  cells : after.cells.size = w.cells.size
  node : ∀ u, after.node u = w.node u
  remembered : ∀ u key, u ≠ v → after.remembered u key = w.remembered u key

theorem TouchesMemo.same (v : Value) (w : World H) : w.TouchesMemo v w :=
  ⟨.same w, rfl, fun _ => rfl, fun _ _ _ => rfl⟩

theorem TouchesMemo.trans (first : w.TouchesMemo v mid) (second : mid.TouchesMemo v after) :
    w.TouchesMemo v after where
  toKeepsSurroundings := first.toKeepsSurroundings.trans second.toKeepsSurroundings
  cells := second.cells.trans first.cells
  node u := (second.node u).trans (first.node u)
  remembered u key other := (second.remembered u key other).trans (first.remembered u key other)

theorem TouchesMemo.remember (v : Value) (key : KeyId) (answer : Payload H) :
    w.TouchesMemo v (w.remember v key answer) where
  toKeepsSurroundings := (KeepsAllButValues.remember w v key answer).toKeepsSurroundings
  cells := by simp [World.remember]
  node u := w.node_remember v u key answer
  remembered u other apart := by
    exact w.remembered_remember_other answer fun same => apart same.1

theorem TouchesMemo.addsCells {n : Node H}
    (touches : (w.create n).2.TouchesMemo (w.create n).1 after) :
    w.AddsCells 1 after where
  toKeepsSurroundings :=
    (KeepsAllButValues.create w n).toKeepsSurroundings.trans touches.toKeepsSurroundings
  cells := by rw [touches.cells, World.create, Array.size_push]
  node v made := by
    have other : v ≠ (w.create n).1 := fun same => unmade_new w n (same ▸ made)
    rw [touches.node, node_create, if_neg other]
  remembered v key made := by
    have other : v ≠ (w.create n).1 := fun same => unmade_new w n (same ▸ made)
    rw [touches.remembered v key other, remembered_create]

structure Blocks (e : EnvironmentId) (w : World H) (v : Value) (b : Block) (l : Option Location) :
    Prop where
  standard : w.Standard e
  made : w.Made v
  node : w.node v = .single Key.block b l

theorem Blocks.touched (blocks : w.Blocks e v b l) (touches : w.TouchesMemo v after) :
    after.Blocks e v b l where
  standard := by
    rw [Standard, World.environment, touches.environments]
    exact blocks.standard
  made := by
    rw [Made, touches.cells]
    exact blocks.made
  node := (touches.node v).trans blocks.node

theorem blocks_new (standard : w.Standard e) (b : Block) (l : Option Location) :
    (w.create (.single Key.block b l)).2.Blocks e (w.create (.single Key.block b l)).1 b l where
  standard := standard
  made := made_new w _
  node := node_new w _

theorem blank_new (w : World H) (n : Node H) (key : KeyId) :
    (w.create n).2.remembered (w.create n).1 key = none := by
  rw [remembered_create]
  exact remembered_unmade (unmade_new w n) key

end World

structure World.Forms (v : Value) (b : Block) (w mid : World H) : Prop where
  touches : w.TouchesMemo v mid
  form : mid.remembered v Key.block.id = some ⟨.block, b⟩
  others : ∀ key, key.index ≠ Key.block.id.index → mid.remembered v key = w.remembered v key

def CallStack.Spends (s : CallStack) (f : Failure) : Prop :=
  ∃ limit, s.limit = some limit ∧ f.cause = .depthLimit limit

namespace CallStack
variable {s inner : CallStack}

theorem full_iff : s.atLimit = true ↔ ¬ s.Room 1 := by
  rw [← Bool.not_eq_false, atLimit_iff]

section Deriving
variable (s) (v : Value) (key : KeyId) (idle : ⟨v, key.index⟩ ∉ s.active)
include idle

theorem derive_roomy (room : s.Room 1) : ∃ inner, s.derive v key = .ok inner ∧ s.Below inner ∧
    inner.active = ⟨v, key.index⟩ :: s.active := by
  have entered := derive_eq_ok_iff.mpr ⟨idle, atLimit_iff.mpr room, rfl⟩
  exact ⟨_, entered, (admitted entered).2⟩

theorem derive_cramped (cramped : ¬ s.Room 1) : s.derive v key = .error s.limitFailure := by
  have inactive : s.isActive v key = false := by
    rw [← Bool.not_eq_true, isActive_iff]
    exact idle
  simp [derive, inactive, full_iff.mpr cramped]

end Deriving

theorem spends_limitFailure (cramped : ¬ s.Room 1) : s.Spends s.limitFailure := by
  cases limited : s.limit with
  | none => exact absurd (fun limit chosen => by simp [limited] at chosen) cramped
  | some limit =>
    exact ⟨limit, limited, by simp [limitFailure, limited, Failure.withTrace, Failure.of]⟩

theorem Below.spends {f : Failure} (below : s.Below inner) (spends : inner.Spends f) :
    s.Spends f := by
  obtain ⟨limit, limited, cause⟩ := spends
  exact ⟨limit, below.limit.symm.trans limited, cause⟩

end CallStack

section Entering
variable {label : Act H String}

theorem entered_recorded (room : ctx.stack.Room 1) (recording : ctx.stack.recording = true)
    {text : String} (shows : label.Ends B w text mid) :
    (ctx.enter label l).Ends B w (.ok (ctx.withStack (ctx.stack.enter text l))) mid := by
  have free := CallStack.atLimit_iff.mpr room
  simp only [Context.enter, free, recording, if_true, Bool.false_eq_true, if_false]
  exact .bind (.lift shows) (.done _ mid)

theorem entered_unrecorded (room : ctx.stack.Room 1) (recording : ctx.stack.recording = false) :
    (ctx.enter label l).Ends B w (.ok (ctx.withStack (ctx.stack.enter "" l))) w := by
  have free := CallStack.atLimit_iff.mpr room
  simp only [Context.enter, free, recording, Bool.false_eq_true, if_false]
  exact .done _ w

theorem entry_refused (cramped : ¬ ctx.stack.Room 1) :
    (ctx.enter label l).Ends B w (.error ctx.stack.limitFailure) w := by
  simp only [Context.enter, CallStack.full_iff.mpr cramped, if_true]
  exact .failed _ w

theorem located (v : Value) (w : World H) :
    (v.location).Ends B w (.ok (w.node v).location) w :=
  .bind (.access (.inspect v) w) (.done _ w)

end Entering

section Asking

theorem answer?_ends {key : Key k} {x : k.Carrier H}
    (ends : (Program.resolve v key.id ctx).Ends B w (.ok (some ⟨k, x⟩)) after) :
    (v.answer? key ctx).Ends B w (.ok (some x)) after := by
  refine .bind ends ?_
  simp only [Payload.as?_self]
  exact .done _ after

variable (blocks : w.Blocks e v b l) (ctx)
include blocks

theorem block_ends (idle : ⟨v, Key.block.id.index⟩ ∉ ctx.stack.active)
    (form : w.remembered v Key.block.id = some ⟨.block, b⟩ ∨
      w.remembered v Key.block.id = none ∧ ctx.stack.Room 1) :
    ∃ mid, w.Forms v b mid ∧ (v.answer? Key.block ctx).Ends B w (.ok (some b)) mid := by
  obtain known | ⟨unknown, room⟩ := form
  · exact ⟨w, ⟨.same v w, known, fun _ _ => rfl⟩, answer?_ends (.resolve (.remembered known ctx))⟩
  obtain ⟨stack, entered, -⟩ := ctx.stack.derive_roomy v Key.block.id idle room
  have own : (w.node v).own? Key.block.id = some ⟨.block, b⟩ := by
    rw [blocks.node]
    rfl
  refine ⟨w.remember v Key.block.id ⟨.block, b⟩, ⟨.remember v _ _, ?_, ?_⟩,
    answer?_ends (.resolve (Request.Ends.derived unknown entered ?_))⟩
  · rw [World.remembered_remember _ _ _ _ _ _ blocks.made, if_pos ⟨rfl, rfl⟩]
  · intro key apart
    exact w.remembered_remember_other _ fun same => apart same.2
  · rw [deriveAnswer_own own]
    exact .done _ w

section Ruled
variable (key : KeyId) (rule : StandardRule) {rest : List StandardRule}
  {f : Block → rule.kind.Carrier H} (rules : StandardRule.forKey key = rule :: rest)
  (direct : rule.inference = .direct Key.block f) (apart : key.index ≠ Key.block.id.index)
  (here : ctx.environment = e)
include rules apart here

theorem ruled_derives (stack : CallStack) : deriveAnswer B w v key (ctx.withStack stack) =
    applyFirst B v (ctx.withStack stack) (.standard rule :: rest.map .standard) := by
  have bare : (w.node v).find? key = none := by
    rw [blocks.node]
    exact List.find?_eq_none.mpr (by
      simpa [Node.single, Node.bare, Node.add, Instance.constant, KeyId.beq_iff_index_eq]
        using apart.symm)
  simp only [deriveAnswer, bare, Context.withStack, here, rulesFor_standard blocks.standard, rules,
    List.map_cons]

include direct

theorem ruled_finds {stack : CallStack}
    (asked : (v.answer? Key.block (ctx.withStack stack)).Ends B w (.ok (some b)) mid) :
    (deriveAnswer B w v key (ctx.withStack stack)).Ends B w (.ok (some ⟨rule.kind, f b⟩)) mid := by
  rw [ruled_derives ctx blocks key rule rules apart here]
  have found : (rule.inference.apply v (ctx.withStack stack)).Ends B w
      (.ok (some ⟨rule.kind, f b⟩)) mid := by
    rw [direct]
    exact .bind asked (.done _ mid)
  exact .bind found (.done _ mid)

theorem ruled_misses {stack : CallStack} {failure : Failure}
    (asked : (v.answer? Key.block (ctx.withStack stack)).Ends B w (.error failure) mid) :
    (deriveAnswer B w v key (ctx.withStack stack)).Ends B w (.error failure) mid := by
  rw [ruled_derives ctx blocks key rule rules apart here]
  have missed : (rule.inference.apply v (ctx.withStack stack)).Ends B w (.error failure) mid := by
    rw [direct]
    exact .bind_failed asked
  exact .bind_failed missed

variable (idle : ctx.stack.active = []) (unknown : w.remembered v key = none)
include idle unknown

theorem ruled_ends (room : ctx.stack.Room 1)
    (form : w.remembered v Key.block.id = some ⟨.block, b⟩ ∨
      w.remembered v Key.block.id = none ∧ ctx.stack.Room 2) :
    ∃ mid, w.Forms v b mid ∧ (Program.resolve v key ctx).Ends B w
      (.ok (some ⟨rule.kind, f b⟩)) (mid.remember v key ⟨rule.kind, f b⟩) := by
  obtain ⟨stack, entered, below, listed⟩ := ctx.stack.derive_roomy v key (by simp [idle]) room
  obtain ⟨mid, forms, asked⟩ := block_ends (B := B) (ctx.withStack stack) blocks
    (by simpa [Context.withStack, listed, idle] using apart.symm)
    (form.imp_right fun both => ⟨both.1, below.room_iff.mpr both.2⟩)
  exact ⟨mid, forms, .resolve (Request.Ends.derived unknown entered
    (ruled_finds ctx blocks key rule rules direct apart here asked))⟩

theorem ruled_fails (unformed : w.remembered v Key.block.id = none)
    (cramped : ¬ ctx.stack.Room 2) :
    ∃ failure, ctx.stack.Spends failure ∧
      (Program.resolve v key ctx).Ends B w (.error failure) w := by
  by_cases room : ctx.stack.Room 1
  · obtain ⟨stack, entered, below, listed⟩ := ctx.stack.derive_roomy v key (by simp [idle]) room
    have full : ¬ stack.Room 1 := fun more => cramped (below.room_iff.mp more)
    have refused := stack.derive_cramped v Key.block.id
      (by simpa [listed, idle] using apart.symm) full
    have asked : (v.answer? Key.block (ctx.withStack stack)).Ends B w
        (.error stack.limitFailure) w := .bind_failed (.resolve (.refused unformed refused))
    exact ⟨_, below.spends (CallStack.spends_limitFailure full),
      .resolve (Request.Ends.derived unknown entered
        (ruled_misses ctx blocks key rule rules direct apart here asked))⟩
  · have refused := ctx.stack.derive_cramped v key (by simp [idle]) room
    exact ⟨_, CallStack.spends_limitFailure room, .resolve (.refused unknown refused)⟩

end Ruled

variable (here : ctx.environment = e) (idle : ctx.stack.active = [])
include here idle

theorem block_shows (blank : ∀ key, w.remembered v key = none) (room : ctx.stack.Room 2) :
    ∃ text shown, (v.format ctx).Ends B w text shown ∧ w.TouchesMemo v shown ∧
      shown.remembered v Key.block.id = some ⟨.block, b⟩ ∧
      shown.remembered v Key.evaluate.id = none := by
  obtain ⟨mid, forms, ends⟩ := ruled_ends (B := B) ctx.withoutRecording blocks Key.text.id
    .blockText rfl rfl (by decide) here idle (blank _) (room.fewer (by omega))
    (.inr ⟨blank _, room⟩)
  refine ⟨"<block>", _, .bind (answer?_ends ends) (.done _ _),
    forms.touches.trans (.remember v _ _), ?_, ?_⟩
  · rw [mid.remembered_remember_other _ fun same => absurd same.2 (by decide)]
    exact forms.form
  · rw [mid.remembered_remember_other _ fun same => absurd same.2 (by decide),
      forms.others _ (by decide), blank]

theorem block_unshown (blank : ∀ key, w.remembered v key = none) (cramped : ¬ ctx.stack.Room 2) :
    (v.format ctx).Ends B w placeholder w := by
  obtain ⟨failure, -, ends⟩ := ruled_fails (B := B) ctx.withoutRecording blocks Key.text.id
    .blockText rfl rfl (by decide) here idle (blank _) (blank _) cramped
  have asked : (v.answer? Key.text ctx.withoutRecording).Ends B w (.error failure) w :=
    .bind_failed ends
  exact .bind asked (.done _ w)

theorem block_evaluates (unknown : w.remembered v Key.evaluate.id = none)
    (room : ctx.stack.Room 1)
    (form : w.remembered v Key.block.id = some ⟨.block, b⟩ ∨
      w.remembered v Key.block.id = none ∧ ctx.stack.Room 2) :
    ∃ mid, w.TouchesMemo v mid ∧ (v.answer Key.evaluate ctx).Ends B w (.ok (.block b)) mid := by
  obtain ⟨mid, forms, ends⟩ := ruled_ends (B := B) ctx blocks Key.evaluate.id
    .blockEvaluate (f := .block) rfl rfl (by decide) here idle unknown room form
  exact ⟨_, forms.touches.trans (.remember v _ _),
    .bind (answer?_ends ends) (.done _ _)⟩

theorem block_opens (blank : ∀ key, w.remembered v key = none)
    (room : ctx.stack.Room (if ctx.stack.recording then 2 else 3)) :
    ∃ label mid, w.TouchesMemo v mid ∧ ∀ r after, (v.evaluate ctx).Ends B w r after ↔
      (b.evaluate (ctx.withStack (ctx.stack.enter label l))).Ends B mid r after := by
  have free : ctx.stack.Room 1 := room.fewer (by split <;> omega)
  have placed : (w.node v).location = l := by rw [blocks.node]; rfl
  have entering : ∃ label shown, w.TouchesMemo v shown ∧
      (ctx.enter (return s!"evaluating {← v.format ctx}") (w.node v).location).Ends B w
        (.ok (ctx.withStack (ctx.stack.enter label l))) shown ∧
      shown.remembered v Key.evaluate.id = none ∧
      (shown.remembered v Key.block.id = some ⟨.block, b⟩ ∨
        shown.remembered v Key.block.id = none ∧ ctx.stack.Room 3) := by
    rw [placed]
    cases recording : ctx.stack.recording with
    | true =>
      rw [recording, if_pos rfl] at room
      obtain ⟨text, shown, shows, touches, form, unknown⟩ :=
        block_shows (B := B) ctx blocks here idle blank room
      exact ⟨_, shown, touches, entered_recorded free recording (.bind shows (.done _ _)), unknown,
        .inl form⟩
    | false =>
      rw [recording, if_neg (by decide)] at room
      exact ⟨_, w, .same v w, entered_unrecorded free recording, blank _, .inr ⟨blank _, room⟩⟩
  obtain ⟨label, shown, touches, enters, unknown, form⟩ := entering
  have below := ctx.stack.below_enter label l
  obtain ⟨mid, touches', answers⟩ := block_evaluates (B := B)
    (ctx.withStack (ctx.stack.enter label l)) (blocks.touched touches) here
    ((active_enter _ _ _).trans idle) unknown (below.room_iff.mpr (room.fewer (by split <;> omega)))
    (form.imp_right fun both => ⟨both.1, below.room_iff.mpr both.2⟩)
  refine ⟨label, mid, touches.trans touches', fun r after => ?_⟩
  rw [Value.evaluate, Program.ends_bind_iff (located v w), Program.ends_bind_iff enters,
    Program.ends_bind_iff answers, Program.ends_evaluate_iff]
  rfl

theorem block_refused (blank : ∀ key, w.remembered v key = none)
    (cramped : ¬ ctx.stack.Room (if ctx.stack.recording then 2 else 3)) :
    ∃ failure, ctx.stack.Spends failure ∧ (v.evaluate ctx).Ends B w (.error failure) w := by
  by_cases free : ctx.stack.Room 1
  · have entering : ∃ label,
        (ctx.enter (return s!"evaluating {← v.format ctx}") (w.node v).location).Ends B w
          (.ok (ctx.withStack (ctx.stack.enter label (w.node v).location))) w := by
      cases recording : ctx.stack.recording with
      | true =>
        rw [recording, if_pos rfl] at cramped
        exact ⟨_, entered_recorded free recording
          (.bind (block_unshown ctx blocks here idle blank cramped) (.done _ _))⟩
      | false => exact ⟨_, entered_unrecorded free recording⟩
    obtain ⟨label, enters⟩ := entering
    have below := ctx.stack.below_enter label (w.node v).location
    obtain ⟨failure, spends, fails⟩ := ruled_fails (B := B)
      (ctx.withStack (ctx.stack.enter label (w.node v).location)) blocks Key.evaluate.id
      .blockEvaluate (f := .block) rfl rfl (by decide) here ((active_enter _ _ _).trans idle)
      (blank _) (blank _) fun room => cramped ((below.room_iff.mp room).fewer (by split <;> omega))
    exact ⟨failure, below.spends spends,
      .bind (located v w) (.bind enters (.bind_failed (.bind_failed (.bind_failed fails))))⟩
  · exact ⟨_, CallStack.spends_limitFailure free,
      .bind (located v w) (.bind_failed (entry_refused free))⟩

end Asking

end TraitDispatch
