import TraitDispatch.Proofs.Safekeeping

/- Stacks in the hands of code. Code gets the stack of the request that it is run for, with the
   derivation on top if one is begun. Whatever it does with stacks meanwhile, and wherever it keeps
   them for later, each of them has come about by moves from an empty one. -/
namespace TraitDispatch
variable {H : Host} {α : Type} {B : Behaviour H} {G : Holdings H} {w mid : World H} {ctx : Context}

/-- At the moment, code of the embedding program is run in the context, from the world on. -/
inductive Moment.Runs (B : Behaviour H) :
    Moment H → Context → {α : Type} → Program H α → World H → Prop where
  | realize {w : World H} {v : Value} {key : KeyId} {ctx : Context} {stack : CallStack}
      {i : Instance H} {code : H.Code} (memo : w.remembered v key = none)
      (admitted : ctx.stack.derive v key = .ok stack) (own : (w.node v).find? key = some i)
      (later : i.body = .lazy code) :
      Runs B ⟨.resolve v key ctx, w⟩ (ctx.withStack stack)
        (B.realize i.kind code v (ctx.withStack stack)) w
  | infer {w mid : World H} {v : Value} {key : KeyId} {ctx : Context} {stack : CallStack}
      {passed rest : List (Rule H)} {k : Kind} {other : Key k} {code : H.Code}
      (memo : w.remembered v key = none) (admitted : ctx.stack.derive v key = .ok stack)
      (lacks : (w.node v).find? key = none)
      (rules : (w.environment ctx.environment).rulesFor key = passed ++ .own k other code :: rest)
      (rejected : (applyFirst B v (ctx.withStack stack) passed).Ends B w (.ok none) mid) :
      Runs B ⟨.resolve v key ctx, w⟩ (ctx.withStack stack)
        ((B.infer k code).apply v (ctx.withStack stack)) mid
  | call {w : World H} (code : H.Code) (argument : Value) (ctx : Context) :
      Runs B ⟨.call (.own code) argument ctx, w⟩ ctx (B.call code argument ctx) w
  | evaluate {w : World H} (code : H.Code) (ctx : Context) :
      Runs B ⟨.evaluate (.own code) ctx, w⟩ ctx (B.evaluate code ctx) w
  | expand {w : World H} (code : H.Code) (parameter replacement : Value) (ctx : Context) :
      Runs B ⟨.expand (.own code) parameter replacement ctx, w⟩ ctx
        (B.expand code parameter replacement ctx) w
  | assign {w : World H} (code : H.Code) (value : Value) (ctx : Context) :
      Runs B ⟨.assign (.own code) value ctx, w⟩ ctx (B.assign code value ctx) w

theorem Moment.Runs.stack {n : Moment H} {m : Program H α} (runs : n.Runs B ctx m mid) :
    ∃ s, n.request.stack? = some s ∧
      (ctx.stack = s ∨ ∃ v key, s.derive v key = .ok ctx.stack) := by
  cases runs with
  | realize memo admitted own later => exact ⟨_, rfl, .inr ⟨_, _, admitted⟩⟩
  | infer memo admitted lacks rules rejected => exact ⟨_, rfl, .inr ⟨_, _, admitted⟩⟩
  | call | evaluate | expand | assign => exact ⟨_, rfl, .inl rfl⟩

theorem Holdings.stack_mem {r : Request H} {s : CallStack} (put : r.stack? = some s) :
    .stack s ∈ G.request r := by
  cases r with
  | access a => cases put
  | _ =>
    cases put
    simp [Holdings.request]

/-- Some moves lead to the stack from an empty one, and it agrees with them. -/
def CallStack.Traceable (s : CallStack) : Prop :=
  ∃ limit moves, (withLimit limit).MovesTo moves s ∧ s.Consistent limit moves

theorem CallStack.Traceable.derive {s t : CallStack} {v : Value} {key : KeyId}
    (traceable : s.Traceable) (derived : s.derive v key = .ok t) : t.Traceable := by
  obtain ⟨limit, moves, comes, -⟩ := traceable
  have further : (withLimit limit).MovesTo (moves ++ [.step (.derive v key)]) t :=
    comes.moved derived
  exact ⟨limit, _, further, further.accounts.consistent⟩

def Token.genuine : Set Token :=
  {t | ∀ s, t = .stack s → ∃ limit moves, (CallStack.withLimit limit).MovesTo moves s}

theorem Token.genuine_workable : Token.Workable Token.genuine where
  start limit := by
    rintro s ⟨⟩
    exact ⟨limit, [], .same⟩
  moved := by
    rintro s t m inside moved u ⟨⟩
    obtain ⟨limit, moves, comes⟩ := inside s rfl
    exact ⟨limit, moves ++ [m], .moved comes moved⟩

/-- Codes use only stacks that they hold, are given or are answered with, and what comes of these or
    of empty ones. Any value will do for them. -/
def Behaviour.Faithful (B : Behaviour H) (G : Holdings H) : Prop :=
  ∀ K, Token.Workable K → (∀ v, .value v ∈ K) → B.Confined G K

/-- So does the program. -/
def Act.Trusty (G : Holdings H) (m : Act H α) : Prop :=
  ∀ K, Token.Workable K → (∀ v, .value v ∈ K) → m.Confined G K fun _ => True

theorem World.encloses_initial {K : Set Token} {memory : H.Memory} (held : G.memory memory ⊆ K) :
    (World.initial memory).Encloses G K where
  node v _ := by
    rintro t ⟨i, member, -⟩
    simp [World.node, World.initial, Node.bare] at member
  remembered v _ key p memo := by
    simp [World.remembered, World.initial] at memo
  environment e := by
    rintro t (⟨rule, member, -⟩ | ⟨name, v, found, -⟩ | ⟨slot, found, -⟩)
    · simp [World.environment, World.initial] at member
    · simp [World.environment, World.initial, Environment.lookup] at found
    · simp [World.environment, World.initial] at found
  memory := held

/-- Every stack that comes about agrees with the moves that lead to it. Stacks of requests come
    about so in every run of faithful programs, and so do those that any code is run with. -/
theorem stacks_consistent :
    (∀ limit moves s, (CallStack.withLimit limit).MovesTo moves s → s.Consistent limit moves) ∧
      ∀ (B : Behaviour H) (G : Holdings H) (memory : H.Memory) (m : Act H α), B.Faithful G →
        G.memory memory ⊆ Token.genuine → m.Trusty G →
          ∀ fuel, ∀ n ∈ m.history B fuel (.initial memory),
            (∀ s, n.request.stack? = some s → s.Traceable) ∧
              ∀ (β : Type) (ran : Program H β) ctx mid, n.Runs B ctx ran mid →
                ctx.stack.Traceable := by
  have consistent : ∀ limit moves s, (CallStack.withLimit limit).MovesTo moves s →
      s.Consistent limit moves := fun _ _ _ comes => comes.accounts.consistent
  refine ⟨consistent, fun B G memory m faithful bare trusty fuel n member => ?_⟩
  have values : ∀ v, Token.value v ∈ Token.genuine := fun v => nofun
  have workable := Token.genuine_workable
  have requested : ∀ s, n.request.stack? = some s → s.Traceable := by
    intro s put
    have held : G.request n.request ⊆ Token.genuine :=
      history_confined (faithful _ workable values) workable (trusty _ workable values)
        (World.encloses_initial bare) values member
    obtain ⟨limit, moves, comes⟩ := held (Holdings.stack_mem put) s rfl
    exact ⟨limit, moves, comes, consistent limit moves s comes⟩
  refine ⟨requested, fun β ran ctx mid runs => ?_⟩
  obtain ⟨s, put, same | ⟨v, key, derived⟩⟩ := runs.stack
  · rw [same]
    exact requested s put
  · exact (requested s put).derive derived

def Host.stowing : Host := ⟨Unit, fun _ => Unit, Unit, Option CallStack⟩

def stow (s : Option CallStack) : Program Host.stowing Unit :=
  Program.access (H := Host.stowing) (.setMemory s)

/-- A function puts its stack away when it is called, unless there is one. That one it takes out, to
    call the argument with it. Nothing else succeeds. -/
def stowing : Behaviour Host.stowing where
  realize _ _ _ _ := throw (.of (.custom "realized"))
  infer _ _ := ⟨Unit, ⟨fun _ _ => return none⟩, fun _ _ => throw (.of (.custom "derived"))⟩
  call _ argument ctx := do
    let (stowed : Option CallStack) ← Program.access (H := Host.stowing) .memory
    match stowed with
    | none => do
      stow (some ctx.stack)
      return argument
    | some s => do
      stow none
      argument.call argument (ctx.withStack s.withoutRecording)
  evaluate _ _ := throw (.of (.custom "evaluated"))
  expand _ _ replacement _ := return replacement
  assign _ _ _ := return ()

def stowed : Holdings Host.stowing where
  code _ := ∅
  own _ _ := ∅
  slot _ := ∅
  memory contents := {t | ∃ s : CallStack, contents = some s ∧ t = .stack s}

theorem stow_confined {K : Set Token} {s : Option CallStack} (held : stowed.memory s ⊆ K) :
    (stow s).Confined stowed K fun _ => True :=
  .access held fun _ _ => trivial

theorem stowing_faithful : stowing.Faithful stowed := by
  intro K workable values
  have called : ∀ code argument ctx, .stack ctx.stack ∈ K →
      (stowing.call code argument ctx).Confined stowed K fun u => .value u ∈ K := by
    intro code argument ctx own
    have looked : (Program.access (H := Host.stowing) .memory).Confined stowed K
        fun contents : Option CallStack => stowed.memory contents ⊆ K :=
      .access (Set.empty_subset _) fun _ held => held
    refine looked.bind fun contents held => ?_
    cases contents with
    | none =>
      have put : stowed.memory (some ctx.stack) ⊆ K := by
        rintro t ⟨s, same, rfl⟩
        cases same
        exact own
      exact (stow_confined put).bind fun _ _ => .done (values argument)
    | some s =>
      have taken : stowed.memory none ⊆ K := by
        rintro t ⟨s, same, -⟩
        cases same
      have equipped : Equipped K s := ⟨workable, held ⟨s, rfl, rfl⟩⟩
      exact (stow_confined taken).bind fun _ _ =>
        Value.call_confined equipped.quiet (values argument) (values argument)
  exact
    { realize := fun _ _ _ _ _ _ _ => .failed _
      infer := fun _ _ _ _ _ _ _ => .nothing
      call := fun code argument ctx _ _ own => called code argument ctx own
      evaluate := fun _ _ _ _ => .failed _
      expand := fun _ _ _ _ _ _ known _ => .done known
      assign := fun _ _ _ _ _ _ => .done trivial }

/-- A function is called twice with itself, with room for nine entries. -/
def stowingProgram : Program Host.stowing Value := do
  let e ← Program.access .addEnvironment
  let f ← Program.create (.single Key.function (.own ()) none)
  let _ ← f.call f ⟨e, .withLimit (some 9)⟩
  f.call f ⟨e, .withLimit (some 9)⟩

theorem stowingProgram_trusty : Act.Trusty stowed stowingProgram.run := by
  intro K workable values
  have called : ∀ (f : Value) e,
      (f.call f ⟨e, .withLimit (some 9)⟩ : Program Host.stowing _).Confined stowed K
        fun u => .value u ∈ K := fun f e =>
    Value.call_confined ⟨workable, workable.start _⟩ (values f) (values f)
  have function : stowed.node (.single Key.function (.own ()) none) ⊆ K :=
    single_held Key.function (Set.empty_subset _) none
  have whole : stowingProgram.Confined stowed K fun u => .value u ∈ K := by
    refine (Program.confined_bare .addEnvironment rfl).bind fun e _ => ?_
    refine (create_confined function).bind fun f _ => ?_
    exact (called f e).bind fun _ _ => called f e
  exact Act.Confined.weaken whole fun _ _ => trivial

def Moment.CallsQuietly (n : Moment Host.stowing) : Bool :=
  match n.request with
  | .call (.own _) _ ctx => !ctx.stack.recording && ctx.stack.nesting == 2 && ctx.stack.depth == 1
  | _ => false

theorem stowed_stack_consistent :
    ∃ n ∈ stowingProgram.run.history stowing 4 (.initial none), ∃ ran ctx mid,
      n.Runs stowing ctx (ran : Program Host.stowing Value) mid ∧ ctx.stack.recording = false ∧
        ctx.stack.nesting = 2 ∧ ctx.stack.depth = 1 ∧ ctx.stack.Traceable := by
  have found : (stowingProgram.run.history stowing 4 (.initial none)).any Moment.CallsQuietly :=
    by decide +kernel
  obtain ⟨⟨r, w⟩, member, quiet⟩ := List.any_eq_true.mp found
  have bare : stowed.memory none ⊆ Token.genuine := by
    rintro t ⟨s, same, -⟩
    cases same
  obtain ⟨-, traceable⟩ := stacks_consistent.2 stowing stowed _ _ stowing_faithful bare
    stowingProgram_trusty 4 _ member
  cases r with
  | call f argument ctx =>
    obtain ⟨code, rfl⟩ : ∃ code, f = .own code := by
      cases f with
      | own code => exact ⟨code, rfl⟩
      | _ => cases quiet
    have runs : (⟨.call (.own code) argument ctx, w⟩ : Moment Host.stowing).Runs stowing ctx
        (stowing.call code argument ctx) w := .call code argument ctx
    simp only [Moment.CallsQuietly, Bool.and_eq_true, Bool.not_eq_true', beq_iff_eq] at quiet
    obtain ⟨⟨silent, nesting⟩, depth⟩ := quiet
    exact ⟨_, member, _, ctx, w, runs, silent, nesting, depth, traceable _ _ _ _ runs⟩
  | _ => cases quiet

end TraitDispatch
