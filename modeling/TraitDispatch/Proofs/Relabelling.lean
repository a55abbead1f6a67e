import TraitDispatch.Proofs.Labels

/- Sessions with other labels. The same code, run where keys are called otherwise, puts requests for
   the same keys and goes on with the same answers; so it comes to the same, or to a failure that
   differs in labels only. -/
namespace TraitDispatch
variable {H : Host} {α β α' β' : Type} {ℓ ℓ' : Labels} {B B' : Behaviour H} {C : Closures H}
  {w w' : World H}

def Abide (R : α → β → Prop) : Option (α × World H) → Option (β × World H) → Prop :=
  Option.Rel fun p q => R p.1 q.1 ∧ p.2.Relabelled q.2

def Act.Parallel (one other : Responder H) (R : α → β → Prop) (m : Act H α) (m' : Act H β) : Prop :=
  ∀ w w', w.Relabelled w' → Abide R (m.run one w) (m'.run other w')

section Programs
variable {one other : Responder H} {R : α → β → Prop} {S : α' → β' → Prop}

namespace Act.Parallel

theorem done {a : α} {b : β} (holds : R a b) :
    Act.Parallel one other R (pure a : Act H α) (pure b) :=
  fun _ _ worlds => .some ⟨holds, worlds⟩

theorem bind {m : Act H α} {m' : Act H β} {f : α → Act H α'} {f' : β → Act H β'}
    (first : Act.Parallel one other R m m')
    (rest : ∀ a b, R a b → Act.Parallel one other S (f a) (f' b)) :
    Act.Parallel one other S (m >>= f) (m' >>= f') := by
  intro w w' worlds
  have begun := first w w' worlds
  rw [Act.run_bind, Act.run_bind]
  generalize m.run one w = x at begun ⊢
  generalize m'.run other w' = y at begun ⊢
  cases begun with
  | none => exact .none
  | some both => exact rest _ _ both.1 _ _ both.2

end Act.Parallel

variable (ℓ ℓ')

abbrev Program.Parallel (one other : Responder H) (R : α → β → Prop) (m : Program H α)
    (m' : Program H β) : Prop :=
  Act.Parallel one other (Agree ℓ ℓ' R) m.run m'.run

variable {ℓ ℓ'}

namespace Program.Parallel

theorem done {a : α} {b : β} (holds : R a b) :
    Program.Parallel ℓ ℓ' one other R (pure a : Program H α) (pure b) :=
  Act.Parallel.done (.ok holds)

theorem failed {f f' : Failure} (alike : f.Alike ℓ ℓ' f') :
    Program.Parallel ℓ ℓ' one other R (throw f : Program H α) (throw f' : Program H β) :=
  Act.Parallel.done (.error alike)

theorem bind {m : Program H α} {m' : Program H β} {f : α → Program H α'} {f' : β → Program H β'}
    (first : Program.Parallel ℓ ℓ' one other R m m')
    (rest : ∀ a b, R a b → Program.Parallel ℓ ℓ' one other S (f a) (f' b)) :
    Program.Parallel ℓ ℓ' one other S (m >>= f) (m' >>= f') := by
  unfold Program.Parallel
  rw [ExceptT.run_bind, ExceptT.run_bind]
  refine Act.Parallel.bind first fun r r' agree => ?_
  cases agree with
  | ok holds => exact rest _ _ holds
  | error alike => exact Act.Parallel.done (.error alike)

end Program.Parallel
end Programs

def Answering (ℓ ℓ' : Labels) (one other : Responder H) : Prop :=
  ∀ v i ctx ctx', ctx.Alike ℓ ℓ' ctx' →
    Program.Parallel ℓ ℓ' one other Eq (Program.resolve v (ℓ.key i) ctx)
      (Program.resolve v (ℓ'.key i) ctx')

section Answering
variable {one other : Responder H} {ctx ctx' : Context} (answering : Answering ℓ ℓ' one other)
  (alike : ctx.Alike ℓ ℓ' ctx')
include answering alike

theorem answer?_parallel (v : Value) (k : Kind) (i : Nat) :
    Program.Parallel ℓ ℓ' one other Eq (v.answer? (⟨ℓ.key i⟩ : Key k) ctx)
      (v.answer? (⟨ℓ'.key i⟩ : Key k) ctx') := by
  refine Program.Parallel.bind (answering v i ctx ctx' alike) fun found found' same => ?_
  subst same
  cases found with
  | none => exact .done rfl
  | some payload =>
    cases content : payload.as? k with
    | none =>
      simp only [content]
      exact .failed ⟨.mismatch i, .nil⟩
    | some x =>
      simp only [content]
      exact .done rfl

theorem answer_parallel (v : Value) (k : Kind) (i : Nat) :
    Program.Parallel ℓ ℓ' one other Eq (v.answer (⟨ℓ.key i⟩ : Key k) ctx)
      (v.answer (⟨ℓ'.key i⟩ : Key k) ctx') := by
  refine (answer?_parallel answering alike v k i).bind fun found found' same => ?_
  subst same
  cases found with
  | none => exact .failed (alike.stack.raised (.missing i))
  | some content => exact .done rfl

theorem Query.parallel (q : Query H Nat α) :
    Program.Parallel ℓ ℓ' one other Eq (q.program ℓ.key ctx) (q.program ℓ'.key ctx') := by
  induction q with
  | done a => exact .done rfl
  | fail failure => exact .failed (.refl failure)
  | raise cause => exact .failed (alike.stack.raised (.same cause))
  | missing i => exact .failed (alike.stack.raised (.missing i))
  | mismatch i => exact .failed ⟨.mismatch i, .nil⟩
  | ask v i next ih =>
    refine Program.Parallel.bind (answering v i ctx ctx' alike) fun found found' same => ?_
    subst same
    exact ih found

theorem realize_parallel {i i' : Instance H} (same : i.unlabelled = i'.unlabelled) (v : Value) :
    Program.Parallel ℓ ℓ' one other Eq (i.realize (C.under ℓ B) v ctx)
      (i'.realize (C.under ℓ' B') v ctx') := by
  obtain ⟨k, key, key', body, rfl, rfl⟩ := Instance.of_unlabelled same
  cases body with
  | constant content => exact .done rfl
  | lazy code =>
    refine (Query.parallel answering alike (C.realize k code v)).bind fun x y same => ?_
    exact .done (congrArg _ same)

theorem own_parallel (k : Kind) (key key' : Key k) (code : H.Code) (v : Value) :
    Program.Parallel ℓ ℓ' one other Eq ((Rule.own k key code).apply (C.under ℓ B) v ctx)
      ((Rule.own k key' code).apply (C.under ℓ' B') v ctx') := by
  refine Program.Parallel.bind (Query.parallel answering alike (C.check k code v))
    fun found found' same => ?_
  subst same
  cases found with
  | none => exact .done rfl
  | some source =>
    refine (Query.parallel answering alike (C.derive k code source)).bind fun x y same => ?_
    exact .done (congrArg (fun x => some (Payload.mk k x)) same)

theorem applyFirst_parallel (v : Value) {rules rules' : List (Rule H)}
    (own : ∀ rule ∈ rules, ∃ k key code, rule = .own k key code)
    (same : List.Forall₂ (fun rule rule' => rule.unlabelled = rule'.unlabelled) rules rules') :
    Program.Parallel ℓ ℓ' one other Eq (applyFirst (C.under ℓ B) v ctx rules)
      (applyFirst (C.under ℓ' B') v ctx' rules') := by
  induction same with
  | nil => exact .done rfl
  | @cons rule rule' rest rest' here _ ih =>
    obtain ⟨⟨k, key, code, rfl⟩, later⟩ := List.forall_mem_cons.mp own
    have first : Program.Parallel ℓ ℓ' one other Eq
        ((Rule.own k key code).apply (C.under ℓ B) v ctx)
        (rule'.apply (C.under ℓ' B') v ctx') := by
      obtain ⟨key', rfl⟩ := Rule.of_unlabelled here
      exact own_parallel answering alike k key key' code v
    refine first.bind fun found found' same => ?_
    subst same
    cases found with
    | none => exact ih later
    | some answer => exact .done rfl

variable (C B B') in
theorem deriveAnswer_parallel (worlds : w.Relabelled w') (v : Value) (i : Nat) :
    Program.Parallel ℓ ℓ' one other Eq (deriveAnswer (C.under ℓ B) w v (ℓ.key i) ctx)
      (deriveAnswer (C.under ℓ' B') w' v (ℓ'.key i) ctx') := by
  have found : ((w.node v).find? (ℓ.key i)).map (·.unlabelled) =
      ((w'.node v).find? (ℓ'.key i)).map (·.unlabelled) := worlds.find? v i
  unfold deriveAnswer
  generalize (w.node v).find? (ℓ.key i) = x at found ⊢
  generalize (w'.node v).find? (ℓ'.key i) = y at found ⊢
  match x, y, found with
  | none, none, _ =>
    rw [← alike.environment]
    refine applyFirst_parallel answering alike v (fun rule member => ?_) (worlds.rulesFor _ rfl)
    exact worlds.own _ rule (List.mem_of_mem_filter member)
  | some own, some own', same =>
    refine (realize_parallel answering alike (Option.some.inj same) v).bind fun x y same => ?_
    exact .done (congrArg some same)

end Answering

/-- Whatever is remembered, refused or derived, is so under either labels. By induction on the
    fuel. -/
theorem respond_answering (fuel : Nat) :
    Answering ℓ ℓ' (respond (C.under ℓ B) fuel) (respond (C.under ℓ' B') fuel) := by
  induction fuel with
  | zero => exact fun v i ctx ctx' alike w w' worlds => .none
  | succ fuel ih =>
    intro v i ctx ctx' alike w w' worlds
    have memo : w.remembered v (ℓ.key i) = w'.remembered v (ℓ'.key i) := worlds.remembered v rfl
    have entered := alike.stack.derive v i
    change Abide _ ((Act.request (.resolve v (ℓ.key i) ctx)).run _ w)
      ((Act.request (.resolve v (ℓ'.key i) ctx')).run _ w')
    rw [Act.run_request, Act.run_request, respond, respond, resolve, resolve, ← memo]
    cases w.remembered v (ℓ.key i) with
    | some answer => exact .some ⟨.ok rfl, worlds⟩
    | none =>
      dsimp only
      generalize ctx.stack.derive v (ℓ.key i) = x at entered ⊢
      generalize ctx'.stack.derive v (ℓ'.key i) = y at entered ⊢
      cases entered with
      | error alike => exact .some ⟨.error alike, worlds⟩
      | @ok inner inner' below =>
        have deeper : (ctx.withStack inner).Alike ℓ ℓ' (ctx'.withStack inner') :=
          ⟨alike.environment, below⟩
        have derived := deriveAnswer_parallel B B' C ih deeper worlds v i w w' worlds
        dsimp only [Program.perform]
        generalize Act.run _ _ w = z at derived ⊢
        generalize Act.run _ _ w' = z' at derived ⊢
        cases derived with
        | none => exact .none
        | @some p p' both =>
          obtain ⟨r, after⟩ := p
          obtain ⟨r', after'⟩ := p'
          obtain ⟨agree, later⟩ := both
          cases agree with
          | error alike => exact .some ⟨.error alike, later⟩
          | @ok found found' same =>
            dsimp only at same later
            subst same
            cases found with
            | none => exact .some ⟨.ok rfl, later⟩
            | some answer => exact .some ⟨.ok rfl, later.remember v rfl answer⟩

section Sessions
variable {fuel : Nat}

theorem access_parallel {X Y : Behaviour H} (a a' : Access H) (R : a.Answer → a'.Answer → Prop)
    (each : ∀ w w' : World H, w.Relabelled w' → R (a.perform w).1 (a'.perform w').1 ∧
      (a.perform w).2.Relabelled (a'.perform w').2) :
    Act.Parallel (respond X fuel) (respond Y fuel) R (Act.access a) (Act.access a') := by
  intro w w' worlds
  rw [Act.access, Act.access, Act.run_request, Act.run_request, respond_access, respond_access]
  exact .some (each w w' worlds)

theorem made_parallel {X Y : Behaviour H} (v : Value) {f f' : Node H → Node H}
    (alike : ∀ n n' : Node H, n.unlabelled = n'.unlabelled →
      (f n).unlabelled = (f' n').unlabelled) :
    Act.Parallel (respond X fuel) (respond Y fuel) (Notice.Alike (H := H) ℓ ℓ')
      (do let node ← Act.access (.inspect v); return .made (← Act.access (.create (f node))))
      (do let node ← Act.access (.inspect v); return .made (← Act.access (.create (f' node)))) := by
  refine (access_parallel (.inspect v) (.inspect v) (fun n n' => n.unlabelled = n'.unlabelled)
    fun w w' worlds => ⟨worlds.node v, worlds⟩).bind fun n n' nodes => ?_
  refine (access_parallel (.create (f n)) (.create (f' n')) Eq fun w w' worlds =>
    worlds.create (alike n n' nodes)).bind fun u u' same => ?_
  subst same
  exact .done (.made u)

variable (C B B' ℓ ℓ' fuel)

theorem Command.parallel (command : Command H) (index : Nat) :
    Act.Parallel (respond (C.under ℓ B) fuel) (respond (C.under ℓ' B') fuel) (Notice.Alike ℓ ℓ')
      (command.act ℓ index) (command.act ℓ' index) := by
  have answering : Answering ℓ ℓ' (respond (C.under ℓ B) fuel) (respond (C.under ℓ' B') fuel) :=
    respond_answering fuel
  cases command with
  | declare kind =>
    refine (access_parallel (.declare kind (ℓ index)) (.declare kind (ℓ' index))
      (fun key key' => key.id.index = key'.id.index) fun w w' worlds =>
        worlds.declare kind _ _).bind fun key key' same => ?_
    rw [same]
    exact .done (.declared _)
  | place location =>
    refine (access_parallel (.create (.bare location)) (.create (.bare location)) Eq
      fun w w' worlds => worlds.create rfl).bind fun u u' same => ?_
    subst same
    exact .done (.made u)
  | add v k key body =>
    refine made_parallel v fun n n' nodes => ?_
    rw [Node.unlabelled_add, Node.unlabelled_add, nodes]
    rfl
  | move v location =>
    refine made_parallel v fun n n' nodes => ?_
    exact congrArg (fun n : Node H => { n with location := location }) nodes
  | addEnvironment =>
    refine (access_parallel .addEnvironment .addEnvironment Eq
      fun w w' worlds => worlds.addEnvironment).bind fun e e' same => ?_
    subst same
    exact .done (.opened e)
  | register e k key code =>
    exact (access_parallel (.register e (.own k ⟨ℓ.key key⟩ code))
      (.register e (.own k ⟨ℓ'.key key⟩ code)) Eq fun w w' worlds =>
        ⟨rfl, worlds.register e k key code⟩).bind fun _ _ _ => .done .registered
  | request v k key ctx =>
    have asked := answer?_parallel answering ⟨rfl, .refl ctx.stack⟩ v k key
    refine Act.Parallel.bind asked fun r r' agree => ?_
    exact .done (.answered k agree)
  | require v k key ctx =>
    have asked := answer_parallel answering ⟨rfl, .refl ctx.stack⟩ v k key
    refine Act.Parallel.bind asked fun r r' agree => ?_
    exact .done (.required k agree)

theorem Command.runAll_abides (commands : List (Command H)) (worlds : w.Relabelled w') :
    Abide (List.Forall₂ (Notice.Alike ℓ ℓ')) (runAll (respond (C.under ℓ B) fuel) ℓ commands w)
      (runAll (respond (C.under ℓ' B') fuel) ℓ' commands w') := by
  induction commands generalizing w w' with
  | nil => exact .some ⟨.nil, worlds⟩
  | cons command rest ih =>
    have first := Command.parallel ℓ ℓ' B B' C fuel command w.declared.size w w' worlds
    have index : w.declared.size = w'.declared.size := congrArg (·.declared.size) worlds.same
    rw [runAll, runAll, ← index]
    generalize (command.act ℓ w.declared.size).run _ w = x at first ⊢
    generalize (command.act ℓ' w.declared.size).run _ w' = y at first ⊢
    cases first with
    | none => exact .none
    | @some p q both =>
      have later := ih both.2
      dsimp only
      generalize runAll _ ℓ rest p.2 = x at later ⊢
      generalize runAll _ ℓ' rest q.2 = y at later ⊢
      cases later with
      | none => exact .none
      | some both' => exact .some ⟨.cons both.1 both'.1, both'.2⟩

end Sessions

/-- What keys are called apart, the worlds are the same to look at: the same answers are remembered
    of every value, its instances are for the same keys in the same order, and so are the rules of
    every environment. -/
structure World.Likewise (w w' : World H) : Prop where
  remembered : ∀ v key, w.remembered v key = w'.remembered v key
  keys : ∀ v, (w.node v).keys.map (·.index) = (w'.node v).keys.map (·.index)
  location : ∀ v, (w.node v).location = (w'.node v).location
  rules : ∀ e, (w.environment e).rules.map (·.key.index) =
    (w'.environment e).rules.map (·.key.index)
  count : ∀ e key, (w.environment e).ruleCount key = (w'.environment e).ruleCount key
  total : ∀ e, (w.environment e).totalRules = (w'.environment e).totalRules
  declared : w.declared = w'.declared

theorem World.Relabelled.likewise (worlds : w.Relabelled w') : w.Likewise w' where
  remembered v key := worlds.remembered v rfl
  keys v := by
    have same := congrArg (fun n : Node H => n.keys.map (·.index)) (worlds.node v)
    simpa [Node.keys, Node.unlabelled, Instance.unlabelled, KeyId.unlabelled, Function.comp_def]
      using same
  location v := congrArg (·.location) (worlds.node v)
  rules e := by
    have same := congrArg (fun E : Environment H => E.rules.map (·.key.index))
      (worlds.environment e)
    simpa [Environment.unlabelled, Function.comp_def, Rule.index_unlabelled] using same
  count e key := (worlds.rulesFor e rfl).length_eq
  total e := congrArg (·.registrations) (worlds.environment e)
  declared := congrArg (·.declared) worlds.same

/-- Whatever keys are called, be it two of them the same, the same commands come to the same:
    values, answers and causes of failures, what is remembered, and the rules and their counts. Only
    where a failure or a frame names a key does it show what the key is called. -/
theorem labels_unobservable (C : Closures H) (B B' : Behaviour H) (ℓ ℓ' : Labels)
    (commands : List (Command H)) (memory : H.Memory) (fuel : Nat) :
    Option.Rel (fun p q => List.Forall₂ (Notice.Alike ℓ ℓ') p.1 q.1 ∧ p.2.Likewise q.2)
      (Command.runAll (respond (C.under ℓ B) fuel) ℓ commands (.initial memory))
      (Command.runAll (respond (C.under ℓ' B') fuel) ℓ' commands (.initial memory)) := by
  have start : (World.initial memory : World H).Relabelled (.initial memory) :=
    ⟨rfl, fun e rule member => nomatch member⟩
  have ended := Command.runAll_abides ℓ ℓ' B B' C fuel commands start
  generalize Command.runAll _ ℓ commands _ = x at ended ⊢
  generalize Command.runAll _ ℓ' commands _ = y at ended ⊢
  cases ended with
  | none => exact .none
  | some both => exact .some ⟨both.1, both.2.likewise⟩

/-- Two keys that are called the same are still two keys. -/
example (C : Closures Host.unit) :
    ((Command.runAll (respond (C.under (fun _ => "K") inert) 1) (fun _ => "K")
      [.declare .text, .declare .text, .place none, .add ⟨0⟩ .text 11 (.constant ⟨"a", none⟩),
        .add ⟨1⟩ .text 12 (.constant ⟨"b", none⟩), .request ⟨2⟩ .text 11 ⟨⟨0⟩, .fresh⟩]
      (.initial ())).bind (·.1.getLast?)) =
        some (.answered .text (.ok (some ⟨"a", none⟩))) := rfl

end TraitDispatch
