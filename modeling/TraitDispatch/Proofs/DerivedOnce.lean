import TraitDispatch.Proofs.Memory

/- A key of a value is derived to a result at most once in a run, whatever the programs of the
   embedding program do, as long as they hand on only stacks that descend from their own. -/
namespace TraitDispatch
variable {H : Host} {α : Type} {B : Behaviour H}

/-- A request for the key on a value, and how it ends. All clones of a value are one handle. -/
def Moment.Finds (B : Behaviour H) (m : Moment H) (v : Value) (key : KeyId)
    (outcome : Except Failure (Option (Payload H))) (after : World H) : Prop :=
  m.world.Made v ∧ ∃ k ctx, m.request = .resolve v k ctx ∧ k.index = key.index ∧
    (Request.resolve v k ctx).Ends B m.world outcome after

def Moment.Derives (B : Behaviour H) (m : Moment H) (v : Value) (key : KeyId) : Prop :=
  m.world.remembered v key = none ∧ ∃ answer after, m.Finds B v key (.ok (some answer)) after

/-- Any request for the key is given the answer, whatever its environment and stack. It asks for
    nothing in turn, and the world stays as it is. -/
def World.AnswersAtOnce (B : Behaviour H) (w : World H) (v : Value) (key : KeyId)
    (answer : Payload H) : Prop :=
  w.remembered v key = some answer ∧ ∀ k ctx, k.index = key.index → ∀ fuel,
    respond B (fuel + 1) (.resolve v k ctx) w = some (.ok (some answer), w) ∧
      nested B fuel (.resolve v k ctx) w = []

/-- What becomes of the requests for one key of one value in a run. -/
structure DerivedOnce (B : Behaviour H) (history : List (Moment H)) (v : Value)
    (key : KeyId) : Prop where
  once : history.Pairwise fun m n => ¬ (m.Derives B v key ∧ n.Derives B v key)
  cyclic : ∀ m ∈ history, ∀ k ctx, m.request = .resolve v k ctx → k.index = key.index →
    ∀ n, m.Contains B n → ∀ j inner, n.request = .resolve v j inner → j.index = key.index →
      ∀ fuel, respond B (fuel + 1) (.resolve v j inner) n.world =
        some (.error (.withTrace (.of (.cyclicDerivation j.label)) inner.stack.backtrace), n.world)
  unanswered : ∀ m ∈ history, ∀ outcome after, m.Finds B v key outcome after →
    (∀ answer, outcome ≠ .ok (some answer)) → after.remembered v key = none
  answered : ∀ m ∈ history, ∀ answer after, m.Finds B v key (.ok (some answer)) after →
    after.AnswersAtOnce B v key answer
  lasting : history.Pairwise fun m n => ∀ answer after,
    m.Finds B v key (.ok (some answer)) after →
      m.Contains B n ∨ n.world.AnswersAtOnce B v key answer

theorem remembered_index {w : World H} {v : Value} {k key : KeyId} (same : k.index = key.index) :
    w.remembered v k = w.remembered v key := by
  simp only [World.remembered, same]

theorem answers_at_once {w : World H} {v : Value} {key : KeyId} {answer : Payload H}
    (memo : w.remembered v key = some answer) : w.AnswersAtOnce B v key answer := by
  refine ⟨memo, fun k ctx same fuel => ⟨?_, nested_at_once ?_ fuel⟩⟩
  · simp only [respond, resolve, remembered_index same, memo]
  · simp only [Request.body?, remembered_index same, memo]

theorem carries_own (v : Value) (key : KeyId) (ctx : Context) :
    (Request.resolve v key ctx : Request H).Carries ctx.stack.active := by
  rintro s ⟨⟩
  rfl

theorem precedes_keepsAnswers (hands : B.HandsOn) {m n : Moment H} (precedes : m.Precedes B n) :
    m.world.KeepsAnswers [] n.world := by
  have carried : ∃ active, m.request.Carries active := by
    cases made : m.request.stack? with
    | none => exact ⟨[], by simp [Request.Carries, made]⟩
    | some s => exact ⟨s.active, by simp [Request.Carries, made]⟩
  obtain ⟨active, carries⟩ := carried
  rcases precedes with ⟨fuel, member⟩ | ⟨a, after, ⟨fuel, answered⟩, grows⟩
  · exact (nested_below hands fuel _ _ active carries n member).1.weaken (List.nil_subset _)
  · have first := respond_keepsAnswers hands fuel _ _ _ active carries answered
    exact (first.weaken (List.nil_subset _)).trans grows

/-- A request nested in a derivation carries the derivation on its stack. -/
theorem contained_fails (hands : B.HandsOn) {m n : Moment H} {v : Value} {k j : KeyId}
    {ctx inner : Context} (asked : m.request = .resolve v k ctx) (contains : m.Contains B n)
    (again : n.request = .resolve v j inner) (same : j.index = k.index) (fuel : Nat) :
    respond B (fuel + 1) (.resolve v j inner) n.world =
      some (.error (.withTrace (.of (.cyclicDerivation j.label)) inner.stack.backtrace),
        n.world) := by
  obtain ⟨request, world⟩ := m
  subst asked
  obtain ⟨depth, member⟩ := contains
  have below := nested_below hands depth _ world _ (carries_own v k ctx) n member
  have listed : ⟨v, j.index⟩ ∈ inner.stack.active := by
    rw [same]
    exact below.2 inner.stack (by rw [again]; rfl) (List.mem_cons_self ..)
  have fresh : n.world.remembered v j = none := by
    cases runs : (Request.resolve v k ctx).body? B world with
    | none => simp [nested_at_once runs] at member
    | some body =>
      rw [remembered_index same]
      exact below.1.blocked v k (List.mem_cons_self ..) (idle_of_body runs).1
  simp only [respond, resolve, fresh, CallStack.derive, CallStack.isActive_iff.mpr listed, if_true]

theorem remembered_settle {v : Value} {k : KeyId} {ctx : Context} {w : World H}
    (a : (Request.resolve v k ctx : Request H).Answer) (made : w.Made v)
    (fresh : w.remembered v k = none) :
    ((Request.resolve v k ctx).settle a w).remembered v k = a.toOption.join := by
  rcases a with _ | _ | answer
  · exact fresh
  · exact fresh
  · change (w.remember v k answer).remembered v k = some answer
    rw [World.remembered_remember w v v k k answer made, if_pos ⟨rfl, rfl⟩]

theorem remembered_after (hands : B.HandsOn) {v : Value} {k : KeyId} {ctx : Context}
    {w after : World H} {outcome : Except Failure (Option (Payload H))} (made : w.Made v)
    (ends : (Request.resolve v k ctx).Ends B w outcome after) :
    after.remembered v k = outcome.toOption.join := by
  cases memo : w.remembered v k with
  | some answer =>
    obtain ⟨rfl, rfl⟩ := Request.ends_unique ends (.remembered (B := B) memo ctx)
    exact memo
  | none =>
    cases admitted : ctx.stack.derive v k with
    | error failure =>
      obtain ⟨rfl, rfl⟩ := Request.ends_unique ends (.refused (B := B) memo admitted)
      exact memo
    | ok stack =>
      obtain ⟨_ | fuel, answered⟩ := ends
      · simp [respond] at answered
      · have runs := Request.body?_derived (B := B) memo admitted
        rw [respond_body runs] at answered
        obtain ⟨q, ran, settled⟩ := Option.map_eq_some_iff.mp answered
        have given := handsOn_body hands runs (carries_own v k ctx)
        have grows := run_keepsAnswers (fun r w p => respond_keepsAnswers hands fuel r w p _)
          _ given w q ran
        have still := grows.blocked v k (List.mem_cons_self ..) memo
        obtain ⟨rfl, rfl⟩ := Prod.mk.inj settled
        exact remembered_settle q.1 (grows.made v made) still

theorem Moment.Finds.remembered (hands : B.HandsOn) {m : Moment H} {v : Value} {key : KeyId}
    {outcome : Except Failure (Option (Payload H))} {after : World H}
    (finds : m.Finds B v key outcome after) :
    after.remembered v key = outcome.toOption.join := by
  obtain ⟨made, k, ctx, -, same, ends⟩ := finds
  rw [← remembered_index same]
  exact remembered_after hands made ends

theorem Moment.Precedes.answers (hands : B.HandsOn) {m n : Moment H} (precedes : m.Precedes B n)
    {v : Value} {key : KeyId} {answer : Payload H} {after : World H}
    (finds : m.Finds B v key (.ok (some answer)) after) :
    m.Contains B n ∨ n.world.AnswersAtOnce B v key answer := by
  rcases precedes with inside | ⟨a, later, ends, grows⟩
  · exact .inl inside
  · have memo := finds.remembered hands
    obtain ⟨-, k, ctx, asked, -, answered⟩ := finds
    obtain ⟨request, world⟩ := m
    subst asked
    obtain ⟨-, rfl⟩ := Request.ends_unique ends answered
    exact .inr (answers_at_once (grows.kept v key answer memo))

/-- A second derivation would be inside the first, where it fails, or after it, where there is
    nothing left to derive. -/
theorem Moment.Precedes.derives_once (hands : B.HandsOn) {m n : Moment H}
    (precedes : m.Precedes B n) {v : Value} {key : KeyId} :
    ¬ (m.Derives B v key ∧ n.Derives B v key) := by
  rintro ⟨⟨-, answer, after, finds⟩, fresh, other, later, again⟩
  rcases precedes.answers hands finds with inside | at_once
  · obtain ⟨-, k, ctx, asked, same, -⟩ := finds
    obtain ⟨-, j, inner, asks, same', ends⟩ := again
    have fails := contained_fails hands asked inside asks (same'.trans same.symm) 0
    have clash := (Request.ends_unique ends ⟨1, fails⟩).1
    cases clash
  · rw [at_once.1] at fresh
    cases fresh

/-- For every run of a program that starts from stacks of its own, with any number of environments,
    whatever fails on the way. -/
theorem derived_once (hands : B.HandsOn) (main : Act H α)
    (top : main.HandsOn fun s => ∃ limit, (CallStack.withLimit limit).Descends s) (w : World H)
    (fuel : Nat) :
    (∀ v key, DerivedOnce B (main.history B fuel w) v key) ∧
      (main.history B fuel w).Pairwise fun m n =>
        ∀ v, m.world.Made v → n.world.Made v ∧ n.world.node v = m.world.node v := by
  have idle : main.HandsOn fun s => s.active = [] :=
    top.weaken fun s ⟨limit, from_fresh⟩ => active_of_descends from_fresh
  have order := history_precedes hands fuel []
    (fun r w => nested_precedes hands fuel r w []) main idle w
  refine ⟨fun v key => ⟨?_, ?_, ?_, ?_, ?_⟩, ?_⟩
  · exact order.imp fun precedes => precedes.derives_once hands
  · intro m _ k ctx asked same n inside j inner again same' level
    exact contained_fails hands asked inside again (same'.trans same.symm) level
  · intro m _ outcome after finds no_answer
    rw [finds.remembered hands]
    rcases outcome with _ | _ | answer
    · rfl
    · rfl
    · exact absurd rfl (no_answer answer)
  · intro m _ answer after finds
    exact answers_at_once (finds.remembered hands)
  · refine order.imp fun {m n} precedes answer after finds => ?_
    exact precedes.answers hands finds
  · refine order.imp fun {m n} precedes v made => ?_
    have grows := precedes_keepsAnswers hands precedes
    exact ⟨grows.made v made, grows.node v made⟩

/-- A text that first asks for itself, and then tells what came of it. -/
def introspective : Behaviour Host.unit :=
  { inert with
    realize := fun
      | .text, _, v, ctx => do
        match ← (Program.resolve v Key.text.id ctx).run.lift with
        | .ok _ => return ⟨"", none⟩
        | .error failure => return ⟨failure.message, none⟩
      | _, _, _, _ => throw (.of (.custom "")) }

def askTwice : Act Host.unit Unit := do
  let v ← Act.access (.create ⟨[⟨.text, Key.text, .lazy ()⟩], none⟩)
  let _ ← Act.request (.resolve v Key.text.id ⟨⟨0⟩, .withLimit none⟩)
  let _ ← Act.request (.resolve v Key.text.id ⟨⟨0⟩, .withLimit (some 0)⟩)

theorem introspective_handsOn : introspective.HandsOn where
  realize k code v ctx := by
    cases k with
    | text =>
      refine (Program.handsOn_lift (Program.handsOn_run
        (Program.handsOn_resolve .same))).bind fun r => ?_
      cases r <;> exact Program.handsOn_pure _
    | _ => exact Program.handsOn_throw _
  check _ _ _ _ := Program.handsOn_pure _
  derive _ _ _ _ := Program.handsOn_throw _
  call _ _ _ := Program.handsOn_pure _
  evaluate _ _ := Program.handsOn_throw _
  expand _ _ _ _ := Program.handsOn_pure _
  assign _ _ _ := Program.handsOn_pure _

theorem askTwice_handsOn :
    askTwice.HandsOn fun s => ∃ limit, (CallStack.withLimit limit).Descends s := by
  refine ⟨by simp [Request.stack?], fun v => ⟨?_, fun _ => ⟨?_, fun _ => trivial⟩⟩⟩
  · rintro s ⟨⟩
    exact ⟨none, .same⟩
  · rintro s ⟨⟩
    exact ⟨some 0, .same⟩

theorem askTwice_derived_once :
    introspective.HandsOn ∧
      (askTwice.HandsOn fun s => ∃ limit, (CallStack.withLimit limit).Descends s) ∧
      (askTwice.history introspective 3 (.initial ())).length = 4 ∧
      ∀ v key, DerivedOnce introspective (askTwice.history introspective 3 (.initial ())) v key :=
  ⟨introspective_handsOn, askTwice_handsOn, by rfl,
    (derived_once introspective_handsOn askTwice askTwice_handsOn (.initial ()) 3).1⟩

end TraitDispatch
