import TraitDispatch.Proofs.DerivedOnce

/- Whether an answer stands, when programs may ask under any stack. What is remembered when a
   request is put is remembered when it is answered, and the one answer that a derivation may
   replace was found while it went on. So an answer stands from then on, unless the key was being
   derived for the value around it, where a stack of its own keeps the cycle from being seen. -/
namespace TraitDispatch
variable {H : Host} {α : Type} {B : Behaviour H}

def Request.Asks (r : Request H) (v : Value) (key : KeyId) : Prop :=
  ∃ k ctx, r = .resolve v k ctx ∧ k.index = key.index

theorem World.KeepsAnswers.settled {w mid : World H} {v : Value} {key : KeyId}
    (grows : w.KeepsAnswers [] mid)
    (fresh : w.remembered v key = none) (answer : Payload H) :
    w.KeepsAnswers [] (mid.remember v key answer) where
  made u made := by simpa [World.Made, World.remember] using grows.made u made
  node u made := (mid.node_remember v u key answer).trans (grows.node u made)
  kept u other old memo := by
    have apart : ¬ (u = v ∧ other.index = key.index) := by
      rintro ⟨rfl, index⟩
      rw [remembered_index index, fresh] at memo
      cases memo
    rw [mid.remembered_remember_other answer apart, grows.kept u other old memo]
  blocked _ _ member := nomatch member

theorem run_retains {respond : Responder H}
    (each : ∀ r w p, respond r w = some p → World.KeepsAnswers [] w p.2) (m : Act H α) (w : World H)
    (p : α × World H) (ran : m.run respond w = some p) : w.KeepsAnswers [] p.2 := by
  induction m generalizing w with
  | done a =>
    cases ran
    exact .same [] w
  | ask r next ih =>
    obtain ⟨q, first, rest⟩ := Act.run_ask_eq_some_iff.mp ran
    exact (each r w q first).trans (ih q.1 q.2 rest)

theorem settle_retains {r : Request H} {w after : World H} {body : Act H r.Answer}
    (runs : r.body? B w = some body) (grows : w.KeepsAnswers [] after) (a : r.Answer) :
    w.KeepsAnswers [] (r.settle a after) := by
  cases r with
  | resolve v key ctx =>
    rcases a with _ | _ | answer
    · exact grows
    · exact grows
    · exact grows.settled (idle_of_body runs).1 answer
  | _ => exact grows

/-- Whatever programs do, a request leaves what was remembered when it was put. -/
theorem respond_retains (fuel : Nat) (r : Request H) (w : World H) (p : r.Answer × World H)
    (answered : respond B fuel r w = some p) : w.KeepsAnswers [] p.2 := by
  induction fuel generalizing r w p with
  | zero =>
    cases r with
    | access a => exact respond_at_once rfl answered []
    | _ => simp [respond] at answered
  | succ fuel ih =>
    cases runs : r.body? B w with
    | none => exact respond_at_once runs answered []
    | some body =>
      rw [respond_body runs] at answered
      obtain ⟨q, ran, rfl⟩ := Option.map_eq_some_iff.mp answered
      exact settle_retains runs (run_retains ih body w q ran) q.1

theorem history_retains (fuel : Nat)
    (inner : ∀ (r : Request H) (w : World H), ∀ n ∈ nested B fuel r w, w.KeepsAnswers [] n.world)
    (m : Act H α) (w : World H) : ∀ n ∈ m.history B fuel w, w.KeepsAnswers [] n.world := by
  induction m generalizing w with
  | done a => simp [Act.history, Act.moments]
  | ask r next ih =>
    intro n member
    rcases mem_history_ask.mp member with rfl | deeper | ⟨q, first, later⟩
    · exact .same [] w
    · exact inner r w n deeper
    · exact (respond_retains fuel r w q first).trans (ih q.1 q.2 n later)

theorem nested_retains (fuel : Nat) (r : Request H) (w : World H) :
    ∀ n ∈ nested B fuel r w, w.KeepsAnswers [] n.world := by
  induction fuel generalizing r w with
  | zero => simp [nested]
  | succ fuel ih =>
    cases runs : r.body? B w with
    | none => simp [nested_at_once runs]
    | some body =>
      rw [nested_body runs]
      exact history_retains fuel ih body w

theorem remembered_answer {v : Value} {k : KeyId} {ctx : Context} {w after : World H}
    {answer : Payload H} (made : w.Made v)
    (ends : (Request.resolve v k ctx).Ends B w (.ok (some answer)) after) :
    after.remembered v k = some answer := by
  cases runs : (Request.resolve v k ctx).body? B w with
  | none =>
    cases ends.at_once runs with
    | remembered memo => exact memo
  | some body =>
    obtain ⟨_ | fuel, answered⟩ := ends
    · simp [respond] at answered
    · rw [respond_body runs] at answered
      obtain ⟨q, ran, settled⟩ := Option.map_eq_some_iff.mp answered
      obtain ⟨found, rfl⟩ := Prod.mk.inj settled
      have grows := run_retains (fun r w p => respond_retains fuel r w p) body w q ran
      rw [found]
      change (q.2.remember v k answer).remembered v k = some answer
      rw [World.remembered_remember q.2 v v k k answer (grows.made v made), if_pos ⟨rfl, rfl⟩]

def Moment.Leaves (B : Behaviour H) (m : Moment H) (v : Value) (key : KeyId) (w : World H) :
    Prop :=
  ∀ answer after, m.Finds B v key (.ok (some answer)) after → w.remembered v key = some answer

/-- Among the requests listed, the one at hand is not put on the way to an answer for the key. -/
def Moment.Outside (B : Behaviour H) (listed : List (Moment H)) (m : Moment H) (v : Value)
    (key : KeyId) : Prop :=
  ∀ o ∈ listed, o.request.Asks v key → ¬ o.Contains B m

section Standing
variable {v : Value} {key : KeyId} {m : Moment H} {w later : World H}

theorem Moment.Leaves.kept (leaves : m.Leaves B v key w) (grows : w.KeepsAnswers [] later) :
    m.Leaves B v key later := fun answer after finds =>
  grows.kept v key answer (leaves answer after finds)

theorem Moment.Outside.fewer {listed more : List (Moment H)} (outside : m.Outside B more v key)
    (fewer : listed ⊆ more) : m.Outside B listed v key := fun o member =>
  outside o (fewer member)

theorem leaves_answered {r : Request H} {q : r.Answer × World H} {fuel : Nat}
    (answered : respond B fuel r w = some q) : (Moment.mk r w).Leaves B v key q.2 := by
  rintro answer after ⟨made, k, ctx, asked, same, ends⟩
  cases asked
  obtain ⟨-, rfl⟩ := Request.ends_unique ends ⟨fuel, answered⟩
  rw [← remembered_index same]
  exact remembered_answer made ends

theorem remembered_settle_other {r : Request H} (other : ¬ r.Asks v key) (a : r.Answer) :
    (r.settle a w).remembered v key = w.remembered v key := by
  cases r with
  | resolve u k ctx =>
    rcases a with _ | _ | answer
    · rfl
    · rfl
    · refine w.remembered_remember_other answer ?_
      rintro ⟨rfl, same⟩
      exact other ⟨k, ctx, rfl, same.symm⟩
  | _ => rfl

theorem history_leaves (fuel : Nat)
    (inner : ∀ (r : Request H) (w : World H) q, respond B fuel r w = some q →
      ¬ r.Asks v key → ∀ n ∈ nested B fuel r w, n.Outside B (nested B fuel r w) v key →
        n.Leaves B v key q.2)
    (m : Act H α) (w : World H) (p : α × World H) (ran : m.run (respond B fuel) w = some p) :
    ∀ n ∈ m.history B fuel w, n.Outside B (m.history B fuel w) v key →
      n.Leaves B v key p.2 := by
  induction m generalizing w with
  | done a => simp [Act.history, Act.moments]
  | ask r next ih =>
    obtain ⟨q, first, ran⟩ := Act.run_ask_eq_some_iff.mp ran
    have rest := run_retains (fun r w p => respond_retains fuel r w p) (next q.1) q.2 p ran
    intro n member outside
    rw [history_ask_some first] at member outside
    rw [List.mem_cons, List.mem_append] at member
    rcases member with rfl | deeper | behind
    · exact (leaves_answered first).kept rest
    · have other : ¬ r.Asks v key := fun asks =>
        outside ⟨r, w⟩ (List.mem_cons_self ..) asks ⟨fuel, deeper⟩
      refine (inner r w q first other n deeper (outside.fewer ?_)).kept rest
      exact fun o member => List.mem_cons_of_mem _ (List.mem_append_left _ member)
    · refine ih q.1 q.2 ran n behind (outside.fewer ?_)
      exact fun o member => List.mem_cons_of_mem _ (List.mem_append_right _ member)

theorem nested_leaves (fuel : Nat) (r : Request H) (w : World H) (q : r.Answer × World H)
    (answered : respond B fuel r w = some q) (other : ¬ r.Asks v key) :
    ∀ n ∈ nested B fuel r w, n.Outside B (nested B fuel r w) v key → n.Leaves B v key q.2 := by
  induction fuel generalizing r w q with
  | zero => simp [nested]
  | succ fuel ih =>
    cases runs : r.body? B w with
    | none => simp [nested_at_once runs]
    | some body =>
      rw [respond_body runs] at answered
      obtain ⟨p, ran, rfl⟩ := Option.map_eq_some_iff.mp answered
      rw [nested_body runs]
      intro n member outside answer after finds
      rw [remembered_settle_other other]
      exact history_leaves fuel ih body w p ran n member outside answer after finds

def Moment.Stands (B : Behaviour H) (v : Value) (key : KeyId) (m n : Moment H) : Prop :=
  m.Contains B n ∨ m.Leaves B v key n.world

theorem history_stands (fuel : Nat) (full : List (Moment H))
    (inner : ∀ (r : Request H) (w : World H), nested B fuel r w ⊆ full →
      (nested B fuel r w).Pairwise fun m n => m.Outside B full v key → m.Stands B v key n)
    (m : Act H α) (w : World H) (listed : m.history B fuel w ⊆ full) :
    (m.history B fuel w).Pairwise fun m n => m.Outside B full v key → m.Stands B v key n := by
  induction m generalizing w with
  | done a => exact .nil
  | ask r next ih =>
    rw [history_ask, List.cons_append] at listed ⊢
    have here := listed (List.mem_cons_self ..)
    have others := (List.cons_subset.mp listed).2
    have within := (List.append_subset.mp others).1
    have behind := (List.append_subset.mp others).2
    rw [List.pairwise_cons, List.pairwise_append]
    cases first : respond B fuel r w with
    | none =>
      refine ⟨fun n member _ => ?_, inner r w within, .nil, by simp⟩
      exact .inl ⟨fuel, by simpa using member⟩
    | some q =>
      rw [first] at behind
      have later := history_retains fuel (nested_retains (B := B) fuel) (next q.1) q.2
      refine ⟨fun n member _ => ?_, inner r w within, ih q.1 q.2 behind,
        fun m deeper n member outside => ?_⟩
      · rcases List.mem_append.mp member with deeper | member
        · exact .inl ⟨fuel, deeper⟩
        · exact .inr ((leaves_answered first).kept (later n member))
      · have other : ¬ r.Asks v key := fun asks => outside ⟨r, w⟩ here asks ⟨fuel, deeper⟩
        have leaves := nested_leaves fuel r w q first other m deeper (outside.fewer within)
        exact .inr (leaves.kept (later n member))

theorem nested_stands (fuel : Nat) (full : List (Moment H)) (r : Request H) (w : World H)
    (listed : nested B fuel r w ⊆ full) :
    (nested B fuel r w).Pairwise fun m n => m.Outside B full v key → m.Stands B v key n := by
  induction fuel generalizing r w with
  | zero => exact .nil
  | succ fuel ih =>
    cases runs : r.body? B w with
    | none => simp [nested_at_once runs]
    | some body =>
      rw [nested_body runs] at listed ⊢
      exact history_stands fuel full ih body w listed

end Standing

/-- For every run of a program, whatever stacks it asks with: a request that finds an answer outside
    of any derivation of the same key on the same value settles what is answered from then on. -/
theorem answers_stand (B : Behaviour H) (main : Act H α) (w : World H) (fuel : Nat) (v : Value)
    (key : KeyId) :
    (main.history B fuel w).Pairwise fun m n => ∀ answer after,
      m.Finds B v key (.ok (some answer)) after →
        m.Outside B (main.history B fuel w) v key →
          m.Contains B n ∨ n.world.AnswersAtOnce B v key answer := by
  have order : (main.history B fuel w).Pairwise fun m n =>
      m.Outside B (main.history B fuel w) v key → m.Stands B v key n :=
    history_stands fuel _ (fun r w listed => nested_stands fuel _ r w listed) main w
      (List.Subset.refl _)
  refine order.imp fun {m n} stands answer after finds outside => ?_
  exact (stands outside).imp_right fun leaves => answers_at_once (leaves answer after finds)

/-- A text that asks for itself under a stack of its own, by which the inner request is known. -/
def reentrant : Behaviour Host.unit :=
  { inert with
    realize := fun
      | .text, _, v, ctx =>
        if ctx.stack.limit.isSome then return ⟨"inner", none⟩
        else do
          let _ ← Program.resolve v Key.text.id ⟨ctx.environment, .withLimit (some 1)⟩
          return ⟨"outer", none⟩
      | _, _, _, _ => throw (.of (.custom "")) }

def askAgain : Act Host.unit Unit := do
  let v ← Act.access (.create ⟨[⟨.text, Key.text, .lazy ()⟩], none⟩)
  let _ ← Act.request (.resolve v Key.text.id ⟨⟨0⟩, .fresh⟩)
  let _ ← Act.request (.resolve v Key.text.id ⟨⟨0⟩, .fresh⟩)

def unasked : World Host.unit :=
  ((World.initial ()).create ⟨[⟨.text, Key.text, .lazy ()⟩], none⟩).2

def askedWithin : World Host.unit :=
  unasked.remember ⟨0⟩ Key.text.id ⟨.text, ⟨"inner", none⟩⟩

def askedAround : World Host.unit :=
  askedWithin.remember ⟨0⟩ Key.text.id ⟨.text, ⟨"outer", none⟩⟩

/-- The inner request is answered while the outer derivation goes on, whose own answer then takes
    the place of that one. So one key of one value is answered in two ways. -/
theorem answer_replaced :
    let inner : Moment Host.unit :=
      ⟨.resolve ⟨0⟩ Key.text.id ⟨⟨0⟩, .withLimit (some 1)⟩, unasked⟩
    let again : Moment Host.unit := ⟨.resolve ⟨0⟩ Key.text.id ⟨⟨0⟩, .fresh⟩, askedAround⟩
    [inner, again].Sublist (askAgain.history reentrant 4 (.initial ())) ∧
      ¬ inner.Contains reentrant again ∧
      inner.Finds reentrant ⟨0⟩ Key.text.id (.ok (some ⟨.text, ⟨"inner", none⟩⟩)) askedWithin ∧
      again.Finds reentrant ⟨0⟩ Key.text.id (.ok (some ⟨.text, ⟨"outer", none⟩⟩)) askedAround := by
  intro inner again
  refine ⟨.cons _ (.cons _ (.refl _)), ?_, ⟨?_, _, _, rfl, rfl, 3, rfl⟩,
    ⟨?_, _, _, rfl, rfl, 1, rfl⟩⟩
  · rintro ⟨fuel, member⟩
    rcases fuel with _ | _ | fuel <;> cases member
  · decide
  · decide

/-- On the way to the outer answer only the inner one is asked for. So what the outer request finds
    settles the second one. -/
theorem outer_answer_stands :
    let around : Moment Host.unit := ⟨.resolve ⟨0⟩ Key.text.id ⟨⟨0⟩, .fresh⟩, unasked⟩
    let again : Moment Host.unit := ⟨.resolve ⟨0⟩ Key.text.id ⟨⟨0⟩, .fresh⟩, askedAround⟩
    [around, again].Sublist (askAgain.history reentrant 4 (.initial ())) ∧
      around.Finds reentrant ⟨0⟩ Key.text.id (.ok (some ⟨.text, ⟨"outer", none⟩⟩)) askedAround ∧
      around.Outside reentrant (askAgain.history reentrant 4 (.initial ())) ⟨0⟩ Key.text.id ∧
      again.world.AnswersAtOnce reentrant ⟨0⟩ Key.text.id ⟨.text, ⟨"outer", none⟩⟩ := by
  intro around again
  let limited : Request Host.unit := .resolve ⟨0⟩ Key.text.id ⟨⟨0⟩, .withLimit (some 1)⟩
  have other : around.request ≠ limited := fun same => by
    cases congrArg (fun r : Request Host.unit => r.stack?.map (·.limit)) same
  have contained : ∀ m, around.Contains reentrant m → m.request = limited := by
    rintro m ⟨_ | _ | fuel, within⟩
    · cases within
    · exact congrArg _ (List.mem_singleton.mp within)
    · exact congrArg _ (List.mem_singleton.mp within)
  have history : askAgain.history reentrant 4 (.initial ()) =
      [⟨.access (.create ⟨[⟨.text, Key.text, .lazy ()⟩], none⟩), .initial ()⟩, around,
        ⟨limited, unasked⟩, again] :=
    rfl
  have finds : around.Finds reentrant ⟨0⟩ Key.text.id (.ok (some ⟨.text, ⟨"outer", none⟩⟩))
      askedAround := ⟨by decide, _, _, rfl, rfl, 3, rfl⟩
  have outside : around.Outside reentrant (askAgain.history reentrant 4 (.initial ())) ⟨0⟩
      Key.text.id := by
    rw [history]
    rintro o member - contains
    simp only [List.mem_cons, List.not_mem_nil, or_false] at member
    rcases member with rfl | rfl | rfl | rfl
    · obtain ⟨_ | fuel, within⟩ := contains <;> cases within
    · exact other (contained _ contains)
    · obtain ⟨_ | _ | fuel, within⟩ := contains <;> cases within
    · obtain ⟨_ | fuel, within⟩ := contains <;> cases within
  have stands := answers_stand reentrant askAgain (.initial ()) 4 ⟨0⟩ Key.text.id
  rw [history] at stands outside ⊢
  have later := (List.pairwise_cons.mp (List.pairwise_cons.mp stands).2).1 again (by simp)
  refine ⟨.cons _ (.cons_cons _ (.cons _ (.refl _))), finds, outside, ?_⟩
  exact (later _ _ finds outside).resolve_left fun contains => other (contained again contains)

end TraitDispatch
