import TraitDispatch.Proofs.Handover
import TraitDispatch.Proofs.History

/- What a run does to memo tables. Answers that were given stay, and nothing is remembered of a
   derivation in progress before it ends: the list of derivations that each stack carries is what
   keeps a second one from starting. -/
namespace TraitDispatch
variable {H : Host} {α : Type} {B : Behaviour H}

structure World.KeepsAnswers (active : List Derivation) (w after : World H) : Prop
    extends World.KeepsNodes w after where
  kept : ∀ v key answer, w.remembered v key = some answer → after.remembered v key = some answer
  blocked : ∀ v key, ⟨v, key.index⟩ ∈ active → w.remembered v key = none →
    after.remembered v key = none

namespace World.KeepsAnswers
variable {active wider : List Derivation} {w mid after : World H}

theorem of_memo_eq (nodes : w.KeepsNodes after)
    (memo : ∀ v key, after.remembered v key = w.remembered v key) :
    KeepsAnswers active w after where
  toKeepsNodes := nodes
  kept v key answer found := by rw [memo, found]
  blocked v key _ found := by rw [memo, found]

theorem same (active : List Derivation) (w : World H) : KeepsAnswers active w w :=
  .of_memo_eq (.same w) fun _ _ => rfl

theorem trans (first : KeepsAnswers active w mid) (second : KeepsAnswers active mid after) :
    KeepsAnswers active w after where
  toKeepsNodes := first.toKeepsNodes.trans second.toKeepsNodes
  kept v key answer memo := second.kept v key answer (first.kept v key answer memo)
  blocked v key member memo := second.blocked v key member (first.blocked v key member memo)

theorem weaken (grows : KeepsAnswers wider w after) (sub : active ⊆ wider) :
    KeepsAnswers active w after :=
  ⟨grows.toKeepsNodes, grows.kept, fun v key member => grows.blocked v key (sub member)⟩

theorem of_cells_eq (same : after.cells = w.cells) : KeepsAnswers active w after :=
  .of_memo_eq (.of_cells_eq same) fun v key => by simp only [World.remembered, same]

theorem create (w : World H) (node : Node H) : KeepsAnswers active w (w.create node).2 :=
  .of_memo_eq (.create w node) fun v key => w.remembered_create node v key

theorem perform (a : Access H) (w : World H) : KeepsAnswers active w (a.perform w).2 := by
  cases a with
  | create node => exact create w node
  | print output line => cases output <;> exact of_cells_eq rfl
  | _ => exact of_cells_eq rfl

end World.KeepsAnswers

theorem World.KeepsAnswers.remember {active : List Derivation} {w : World H} {v : Value}
    {key : KeyId} (answer : Payload H) (fresh : w.remembered v key = none)
    (idle : ⟨v, key.index⟩ ∉ active) : w.KeepsAnswers active (w.remember v key answer) := by
  refine ⟨.remember w v key answer, ?_, ?_⟩
  · intro u other old memo
    have apart : ¬ (u = v ∧ other.index = key.index) := by
      rintro ⟨rfl, index⟩
      simp only [World.remembered, index] at memo fresh
      rw [fresh] at memo
      cases memo
    rw [w.remembered_remember_other answer apart, memo]
  · intro u other member memo
    have apart : ¬ (u = v ∧ other.index = key.index) := by
      rintro ⟨rfl, index⟩
      exact idle (index ▸ member)
    rw [w.remembered_remember_other answer apart, memo]

def Request.inProgress (active : List Derivation) : Request H → List Derivation
  | .resolve v key _ => ⟨v, key.index⟩ :: active
  | _ => active

def Request.Carries (active : List Derivation) (r : Request H) : Prop :=
  ∀ s, r.stack? = some s → s.active = active

theorem subset_inProgress (active : List Derivation) (r : Request H) :
    active ⊆ r.inProgress active := by
  cases r with
  | resolve v key ctx => exact List.subset_cons_self _ _
  | _ => exact List.Subset.refl _

theorem handsOn_body {r : Request H} {w : World H} {body : Act H r.Answer}
    {active : List Derivation} (hands : B.HandsOn) (runs : r.body? B w = some body)
    (carries : r.Carries active) : body.HandsOn fun s => s.active = r.inProgress active := by
  have below : ∀ {s : CallStack}, s.active = active → ∀ t, s.Descends t → t.active = active :=
    fun same t from_s => (active_of_descends from_s).trans same
  cases r with
  | resolve v key ctx =>
    obtain ⟨-, stack, admitted, rfl⟩ := Request.body?_resolve_iff.mp runs
    obtain ⟨-, -, rfl⟩ := CallStack.derive_eq_ok_iff.mp admitted
    refine (handsOn_deriveAnswer hands w v key).weaken fun t from_s => ?_
    rw [active_of_descends from_s]
    change _ :: ctx.stack.active = _ :: active
    rw [carries ctx.stack rfl]
  | call f argument ctx =>
    cases runs
    exact (f.handsOn_apply hands argument).weaken (below (carries ctx.stack rfl))
  | evaluate f ctx =>
    cases runs
    exact (f.handsOn_apply hands).weaken (below (carries ctx.stack rfl))
  | expand f parameter replacement ctx =>
    cases runs
    exact (f.handsOn_apply hands parameter replacement).weaken (below (carries ctx.stack rfl))
  | assign f value ctx =>
    cases runs
    exact (f.handsOn_apply hands value).weaken (below (carries ctx.stack rfl))
  | access a => simp [Request.body?] at runs

theorem respond_at_once {r : Request H} {w : World H} {p : r.Answer × World H} {fuel : Nat}
    (at_once : r.body? B w = none) (answered : respond B fuel r w = some p)
    (active : List Derivation) : w.KeepsAnswers active p.2 := by
  obtain ⟨a, after⟩ := p
  have ends : r.Ends B w a after := ⟨fuel, answered⟩
  cases ends.at_once at_once with
  | access a => exact .perform a w
  | remembered | refused => exact .same active w

theorem idle_of_body {v : Value} {key : KeyId} {ctx : Context} {w : World H}
    {body : Act H (Request.resolve v key ctx : Request H).Answer}
    (runs : (Request.resolve v key ctx).body? B w = some body) :
    w.remembered v key = none ∧ ⟨v, key.index⟩ ∉ ctx.stack.active := by
  obtain ⟨memo, stack, admitted, -⟩ := Request.body?_resolve_iff.mp runs
  exact ⟨memo, (CallStack.derive_eq_ok_iff.mp admitted).1⟩

theorem settle_keepsAnswers {r : Request H} {w after : World H} {body : Act H r.Answer}
    {active : List Derivation} (runs : r.body? B w = some body) (carries : r.Carries active)
    (grows : w.KeepsAnswers (r.inProgress active) after) (a : r.Answer) :
    after.KeepsAnswers active (r.settle a after) := by
  cases r with
  | resolve v key ctx =>
    obtain ⟨fresh, idle⟩ := idle_of_body runs
    rw [carries ctx.stack rfl] at idle
    have still := grows.blocked v key (List.mem_cons_self ..) fresh
    rcases a with _ | _ | answer
    · exact .same active after
    · exact .same active after
    · exact .remember answer still idle
  | _ => exact .same active after

theorem run_keepsAnswers {respond : Responder H} {active : List Derivation}
    (each : ∀ r w q, r.Carries active → respond r w = some q → w.KeepsAnswers active q.2)
    (m : Act H α) (hands : m.HandsOn fun s => s.active = active) (w : World H)
    (p : α × World H) (ran : m.run respond w = some p) : w.KeepsAnswers active p.2 := by
  induction m generalizing w with
  | done a =>
    cases ran
    exact .same active w
  | ask r next ih =>
    obtain ⟨q, first, rest⟩ := Act.run_ask_eq_some_iff.mp ran
    exact (each r w q hands.1 first).trans (ih q.1 (hands.2 q.1) q.2 rest)

theorem respond_keepsAnswers (hands : B.HandsOn) (fuel : Nat) (r : Request H) (w : World H)
    (p : r.Answer × World H) (active : List Derivation) (carries : r.Carries active)
    (answered : respond B fuel r w = some p) : w.KeepsAnswers active p.2 := by
  induction fuel generalizing r w p active with
  | zero =>
    cases r with
    | access a => exact respond_at_once rfl answered active
    | _ => simp [respond] at answered
  | succ fuel ih =>
    cases runs : r.body? B w with
    | none => exact respond_at_once runs answered active
    | some body =>
      rw [respond_body runs] at answered
      obtain ⟨q, ran, rfl⟩ := Option.map_eq_some_iff.mp answered
      have ran_grows := run_keepsAnswers (fun r w q => ih r w q _) body
        (handsOn_body hands runs carries) w q ran
      exact (ran_grows.weaken (subset_inProgress active r)).trans
        (settle_keepsAnswers runs carries ran_grows q.1)

def Moment.Below (active : List Derivation) (w : World H) (n : Moment H) : Prop :=
  w.KeepsAnswers active n.world ∧ ∀ s, n.request.stack? = some s → active ⊆ s.active

theorem history_below (hands : B.HandsOn) (fuel : Nat) (active : List Derivation)
    (inner : ∀ (r : Request H) (w : World H), r.Carries active →
      ∀ n ∈ nested B fuel r w, n.Below (r.inProgress active) w)
    (m : Act H α) (given : m.HandsOn fun s => s.active = active) (w : World H) :
    ∀ n ∈ m.history B fuel w, n.Below active w := by
  induction m generalizing w with
  | done a => simp [Act.history, Act.moments]
  | ask r next ih =>
    intro n member
    rcases mem_history_ask.mp member with rfl | deeper | ⟨q, first, later⟩
    · exact ⟨.same active w, fun s made => by rw [given.1 s made]; exact List.Subset.refl _⟩
    · obtain ⟨grows, lists⟩ := inner r w given.1 n deeper
      have sub := subset_inProgress active r
      exact ⟨grows.weaken sub, fun s made => List.Subset.trans sub (lists s made)⟩
    · obtain ⟨grows, lists⟩ := ih q.1 (given.2 q.1) q.2 n later
      exact ⟨(respond_keepsAnswers hands fuel r w q active given.1 first).trans grows, lists⟩

theorem nested_below (hands : B.HandsOn) (fuel : Nat) (r : Request H) (w : World H)
    (active : List Derivation) (carries : r.Carries active) :
    ∀ n ∈ nested B fuel r w, n.Below (r.inProgress active) w := by
  induction fuel generalizing r w active with
  | zero => simp [nested]
  | succ fuel ih =>
    cases runs : r.body? B w with
    | none => simp [nested_at_once runs]
    | some body =>
      rw [nested_body runs]
      exact history_below hands fuel _ (fun r w => ih r w _) body
        (handsOn_body hands runs carries) w

/-- Everything asked on the way to an answer has been answered before it is given. -/
theorem history_answered (hands : B.HandsOn) (fuel : Nat) (active : List Derivation)
    (inner : ∀ (r : Request H) (w : World H) q, r.Carries active → respond B fuel r w = some q →
      ∀ n ∈ nested B fuel r w, ∃ a after, n.request.Ends B n.world a after ∧
        after.KeepsAnswers [] q.2)
    (m : Act H α) (given : m.HandsOn fun s => s.active = active) (w : World H) (p : α × World H)
    (ran : m.run (respond B fuel) w = some p) :
    ∀ n ∈ m.history B fuel w,
      ∃ a after, n.request.Ends B n.world a after ∧ after.KeepsAnswers [] p.2 := by
  induction m generalizing w with
  | done a => simp [Act.history, Act.moments]
  | ask r next ih =>
    obtain ⟨q, first, ran⟩ := Act.run_ask_eq_some_iff.mp ran
    have rest := run_keepsAnswers (fun r w p => respond_keepsAnswers hands fuel r w p active)
      (next q.1) (given.2 q.1) q.2 p ran
    intro n member
    rw [history_ask_some first, List.mem_cons, List.mem_append] at member
    rcases member with rfl | deeper | later
    · exact ⟨q.1, q.2, ⟨fuel, first⟩, rest.weaken (List.nil_subset _)⟩
    · obtain ⟨a, after, ends, grows⟩ := inner r w q given.1 first n deeper
      exact ⟨a, after, ends, grows.trans (rest.weaken (List.nil_subset _))⟩
    · exact ih q.1 (given.2 q.1) q.2 ran n later

theorem nested_answered (hands : B.HandsOn) (fuel : Nat) (r : Request H) (w : World H)
    (p : r.Answer × World H) (active : List Derivation) (carries : r.Carries active)
    (answered : respond B fuel r w = some p) :
    ∀ n ∈ nested B fuel r w,
      ∃ a after, n.request.Ends B n.world a after ∧ after.KeepsAnswers [] p.2 := by
  induction fuel generalizing r w p active with
  | zero => simp [nested]
  | succ fuel ih =>
    cases runs : r.body? B w with
    | none => simp [nested_at_once runs]
    | some body =>
      rw [respond_body runs] at answered
      obtain ⟨q, ran, rfl⟩ := Option.map_eq_some_iff.mp answered
      have given := handsOn_body hands runs carries
      have ran_grows := run_keepsAnswers (fun r w p => respond_keepsAnswers hands fuel r w p _)
        body given w q ran
      have settled := settle_keepsAnswers runs carries ran_grows q.1
      rw [nested_body runs]
      intro n member
      obtain ⟨a, after, ends, grows⟩ :=
        history_answered hands fuel _ (fun r w q => ih r w q _) body given w q ran n member
      exact ⟨a, after, ends, grows.trans (settled.weaken (List.nil_subset _))⟩

def Moment.Precedes (B : Behaviour H) (m n : Moment H) : Prop :=
  m.Contains B n ∨ ∃ a after, m.request.Ends B m.world a after ∧ after.KeepsAnswers [] n.world

theorem history_precedes (hands : B.HandsOn) (fuel : Nat) (active : List Derivation)
    (inner : ∀ (r : Request H) (w : World H), r.Carries active →
      (nested B fuel r w).Pairwise (Moment.Precedes B))
    (m : Act H α) (given : m.HandsOn fun s => s.active = active) (w : World H) :
    (m.history B fuel w).Pairwise (Moment.Precedes B) := by
  induction m generalizing w with
  | done a => exact .nil
  | ask r next ih =>
    rw [history_ask, List.cons_append, List.pairwise_cons, List.pairwise_append]
    cases first : respond B fuel r w with
    | none =>
      refine ⟨fun n member => ?_, inner r w given.1, .nil, by simp⟩
      exact .inl ⟨fuel, by simpa using member⟩
    | some q =>
      have later : ∀ n ∈ (next q.1).history B fuel q.2,
        q.2.KeepsAnswers [] n.world := fun n member =>
        (history_below hands fuel active (fun r w => nested_below hands fuel r w active) (next q.1)
          (given.2 q.1) q.2 n member).1.weaken (List.nil_subset _)
      refine ⟨fun n member => ?_, inner r w given.1, ih q.1 (given.2 q.1) q.2,
        fun m deeper n member => ?_⟩
      · rcases List.mem_append.mp member with deeper | member
        · exact .inl ⟨fuel, deeper⟩
        · exact .inr ⟨q.1, q.2, ⟨fuel, first⟩, later n member⟩
      · obtain ⟨a, after, ends, grows⟩ :=
          nested_answered hands fuel r w q active given.1 first m deeper
        exact .inr ⟨a, after, ends, grows.trans (later n member)⟩

theorem nested_precedes (hands : B.HandsOn) (fuel : Nat) (r : Request H) (w : World H)
    (active : List Derivation) (carries : r.Carries active) :
    (nested B fuel r w).Pairwise (Moment.Precedes B) := by
  induction fuel generalizing r w active with
  | zero => exact .nil
  | succ fuel ih =>
    cases runs : r.body? B w with
    | none => simp [nested_at_once runs]
    | some body =>
      rw [nested_body runs]
      exact history_precedes hands fuel _ (fun r w => ih r w _) body
        (handsOn_body hands runs carries) w

end TraitDispatch
