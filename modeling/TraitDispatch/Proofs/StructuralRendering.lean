import TraitDispatch.Proofs.GoodOrder

/- Renderings in the course of runs. What is remembered of values that are made of constants stays
   right as long as they are asked where there are only the standard rules, and they are rendered as
   their forms say. -/
namespace TraitDispatch
variable {H : Host} {B : Behaviour H} {w : World H} {v : Value}

/-- Worlds that can be reached by programs that keep to this. First nothing is remembered. Worlds in
    which code puts a request are reached whether the run comes to an end or not. -/
inductive World.Frequented (B : Behaviour H) : World H → Prop where
  | blank {w : World H} (blank : ∀ v key, w.remembered v key = none) : Frequented B w
  | amid {w : World H} {α : Type} {m : Act H α} {n : Moment H} (before : Frequented B w)
      (ordinary : ∀ n, m.Puts B w n → n.Ordinary) (puts : m.Puts B w n) : Frequented B n.world
  | ran {w after : World H} {α : Type} {m : Act H α} {a : α} (before : Frequented B w)
      (ordinary : ∀ n, m.Puts B w n → n.Ordinary) (ends : m.Ends B w a after) : Frequented B after

theorem World.Frequented.orderly (frequented : w.Frequented B) : w.Orderly := by
  induction frequented with
  | blank blank => exact .of_blank blank
  | amid _ ordinary puts ih => exact puts.orderly ih ordinary
  | ran _ ordinary ends ih => exact ends.orderly ih ordinary

/-- In every such world a value that is made of constants is rendered by its forms, unless something
    is in progress that its rendering asks for. -/
theorem rendering_is_structural {ctx : Context} (frequented : w.Frequented B)
    (constant : w.Constant v) (standard : w.Standard ctx.environment)
    (eased : ctx.stack.Eased w v) :
    ∃ s, w.Reference v s ∧ (∀ t, w.Reference v t → t = s) ∧
      ∃ after, (v.format ctx).Ends B w s after := by
  obtain ⟨s, appears⟩ := frequented.orderly v constant
  have formats : (v.format ctx).Succeeds B World.KeepsOrder w fun t _ => t = s :=
    format_amidst appears (World.Growth.same w) standard eased
  obtain ⟨t, after, ends, -, rfl⟩ := formats
  exact ⟨t, appears.reference, fun _ other => other.unique appears.reference, after, ends⟩

def shadowingWorld : World Host.unit :=
  { World.initial () with
    cells := #[⟨.single Key.name ⟨"x"⟩ none, []⟩,
      ⟨((Node.single Key.list ⟨[]⟩ none).add (.constant Key.list ⟨[⟨0⟩, ⟨0⟩]⟩)).add
        (.constant Key.name ⟨"y"⟩), []⟩,
      ⟨.single Key.quoted ⟨⟨1⟩⟩ none, []⟩, ⟨(Node.bare none).add ⟨.text, Key.text, .lazy ()⟩, []⟩]
    environments := #[{ rules := StandardRule.inOrder.map .standard }] }

/-- Codes for renderings render the first value. -/
def echoing : Behaviour Host.unit :=
  { inert with
    realize := fun
      | .text, _, _, ctx => return ⟨← ((⟨0⟩ : Value).format ctx).lift, none⟩
      | k, code, v, ctx => inert.realize k code v ctx }

def shadowedWorld : World Host.unit :=
  ((shadowingWorld.remember ⟨0⟩ Key.name.id ⟨.name, ⟨"x"⟩⟩).remember ⟨0⟩ Key.text.id
    ⟨.text, ⟨"x", none⟩⟩).remember ⟨3⟩ Key.text.id ⟨.text, ⟨"x", none⟩⟩

theorem shadowed_reference : shadowedWorld.Reference ⟨2⟩ "'(x x)" := by
  have name : shadowedWorld.Reference ⟨0⟩ "x" := .of_shown (fun _ => "") nofun (by decide +kernel)
  have list : shadowedWorld.Reference ⟨1⟩ "(x x)" := by
    refine .of_shown (fun _ => "x") (fun u part => ?_) (by decide +kernel)
    have parts : (shadowedWorld.node ⟨1⟩).parts = [⟨0⟩, ⟨0⟩] := rfl
    rw [parts] at part
    simp only [List.mem_cons, List.not_mem_nil, or_self, or_false] at part
    rw [part]
    exact name
  refine .of_shown (fun _ => "(x x)") (fun u part => ?_) (by decide +kernel)
  have parts : (shadowedWorld.node ⟨2⟩).parts = [⟨1⟩] := rfl
  rw [parts, List.mem_singleton] at part
  rw [part]
  exact list

theorem shadowed_constant : shadowedWorld.Constant ⟨2⟩ := by
  have name : shadowedWorld.Constant ⟨0⟩ :=
    .intro (by decide) (Node.fixed_single rfl _ _) nofun nofun
  have list : shadowedWorld.Constant ⟨1⟩ := by
    have parts : (shadowedWorld.node ⟨1⟩).parts = [⟨0⟩, ⟨0⟩] := rfl
    refine .intro (by decide) ?_ ?_ ?_
    · exact List.forall_mem_cons.mpr ⟨Instance.fixed_constant rfl _, List.forall_mem_cons.mpr
        ⟨Instance.fixed_constant rfl _, Node.fixed_single rfl _ _⟩⟩
    · rw [parts]
      decide
    · rw [parts]
      simpa using name
  have parts : (shadowedWorld.node ⟨2⟩).parts = [⟨1⟩] := rfl
  refine .intro (by decide) (Node.fixed_single rfl _ _) ?_ ?_
  · rw [parts]
    decide
  · rw [parts]
    simpa using list

theorem puts_of_map {α β : Type} {m : Act H α} {f : α → β} {n : Moment H}
    (puts : (m >>= fun a => pure (f a)).Puts B w n) : m.Puts B w n := by
  change (m.bind fun a => pure (f a)).Puts B w n at puts
  induction m generalizing w with
  | done a => cases puts
  | ask r next ih =>
    cases puts with
    | here => exact .here
    | later ends puts => exact .later ends (ih _ puts)
    | inside foreign runs puts => exact .inside foreign runs puts

theorem puts_of_format {ctx : Context} {n : Moment H} (puts : (v.format ctx).Puts B w n) :
    (Act.request (.resolve v Key.text.id ctx.withoutRecording)).Puts B w n := by
  cases puts with
  | here => exact .here
  | @later _ _ _ _ _ a _ _ puts =>
    rcases a with _ | _ | ⟨k, x⟩
    · cases puts
    · cases puts
    · cases k <;> cases puts
  | inside foreign runs puts => exact .inside foreign runs puts

theorem echoing_derives (ctx : Context) :
    (deriveAnswer echoing shadowingWorld ⟨3⟩ Key.text.id ctx).run =
      ((⟨0⟩ : Value).format ctx >>= fun s => pure (.ok (some ⟨.text, ⟨s, none⟩⟩))) := by
  have unfolds : deriveAnswer echoing shadowingWorld ⟨3⟩ Key.text.id ctx =
      (do return some (← (do return ⟨.text, ← (do return ⟨← ((⟨0⟩ : Value).format ctx).lift, none⟩ :
        Program Host.unit Text)⟩ : Program Host.unit (Payload Host.unit)))) := rfl
  simp [unfolds, Act.lift, Except.map]

theorem echoing_ordinary {n : Moment Host.unit}
    (puts : ((⟨3⟩ : Value).format ⟨⟨0⟩, .fresh⟩).Puts echoing shadowingWorld n) : n.Ordinary := by
  have opened : (Context.mk ⟨0⟩ .fresh).withoutRecording.stack.Open := ⟨rfl, rfl⟩
  cases puts_of_format puts with
  | here =>
    rintro v key ctx ⟨⟩
    exact ⟨by decide, fun _ => ⟨rfl, (opened.eased _).bides _⟩⟩
  | later _ nothing => cases nothing
  | inside foreign runs puts =>
    obtain ⟨-, inner, admitted, rfl⟩ := Request.body?_resolve_iff.mp runs
    obtain ⟨-, -, rfl⟩ := CallStack.derive_eq_ok_iff.mp admitted
    rw [echoing_derives] at puts
    cases puts_of_format (puts_of_map puts) with
    | here =>
      rintro v key ctx ⟨⟩
      refine ⟨by decide, fun _ => ⟨rfl, CallStack.Eased.bides ⟨rfl, fun d busy inside => ?_⟩ _⟩⟩
      -- What is in progress is the rendering of the other value, which the name does not hold.
      obtain rfl := List.mem_singleton.mp busy
      rcases Relation.ReflTransGen.cases_tail inside with same | ⟨u, -, part⟩
      · cases same
      · cases part
    | later _ nothing => cases nothing
    | inside foreign =>
      have name : shadowingWorld.Constant ⟨0⟩ :=
        .intro (by decide) (Node.fixed_single rfl _ _) nofun nofun
      exact absurd name foreign

theorem shadowed_frequented : shadowedWorld.Frequented echoing := by
  have blank : ∀ v key, shadowingWorld.remembered v key = none := by
    rintro ⟨_ | _ | _ | _ | id⟩ key <;> rfl
  have ran : ((⟨3⟩ : Value).format ⟨⟨0⟩, .fresh⟩).run (respond echoing 3) shadowingWorld =
      some ("x", shadowedWorld) := by rfl
  exact .ran (.blank blank) (fun _ => echoing_ordinary) ⟨3, ran⟩

/-- The quote is rendered right even while it is being asked whether it is a function. -/
theorem quoted_list_renders :
    shadowedWorld.Frequented echoing ∧ shadowedWorld.Constant ⟨2⟩ ∧ shadowedWorld.Standard ⟨0⟩ ∧
      ∃ stack, CallStack.fresh.derive ⟨2⟩ Key.function.id = .ok stack ∧
        stack.Eased shadowedWorld ⟨2⟩ ∧
        ∃ after, ((⟨2⟩ : Value).format ⟨⟨0⟩, stack⟩).Ends echoing shadowedWorld "'(x x)" after := by
  obtain ⟨stack, admitted⟩ : ∃ stack, CallStack.fresh.derive ⟨2⟩ Key.function.id = .ok stack :=
    ⟨_, rfl⟩
  have eased : (Context.mk ⟨0⟩ stack).stack.Eased shadowedWorld ⟨2⟩ := by
    obtain ⟨-, -, rfl⟩ := CallStack.derive_eq_ok_iff.mp admitted
    refine ⟨rfl, fun d member _ => ?_⟩
    obtain rfl := List.mem_singleton.mp member
    refine ⟨by decide, ?_⟩
    rintro (form | ⟨-, own⟩)
    · revert form
      decide
    · exact own rfl
  have standard : shadowedWorld.Standard (Context.mk ⟨0⟩ stack).environment := rfl
  obtain ⟨s, -, unique, after, ends⟩ :=
    rendering_is_structural shadowed_frequented shadowed_constant standard eased
  rw [← unique _ shadowed_reference] at ends
  exact ⟨shadowed_frequented, shadowed_constant, standard, stack, admitted, eased, after, ends⟩

/-- Codes for renderings register a rule by which names are blocks, and ask the first value whether
    it is a block. -/
def reclassifying : Behaviour Host.unit :=
  { inert with
    realize := fun
      | .text, _, _, ctx => do
        Program.access (.register ctx.environment (.own .block Key.block ()))
        let _ ← (⟨0⟩ : Value).answers Key.block ctx
        return ⟨"", none⟩
      | k, code, v, ctx => inert.realize k code v ctx
    infer := fun
      | .block, _ => ⟨Name, .conforms Key.name, fun _ _ => return ⟨[]⟩⟩
      | k, code => inert.infer k code }

def hinderedWorld : World Host.unit :=
  { World.initial () with
    cells := #[⟨.single Key.name ⟨"x"⟩ none, []⟩, ⟨.single Key.list ⟨[⟨0⟩]⟩ none, []⟩,
      ⟨(Node.bare none).add ⟨.text, Key.text, .lazy ()⟩, []⟩]
    environments := #[{ rules := StandardRule.inOrder.map .standard },
      { rules := StandardRule.inOrder.map .standard }] }

theorem hindered_constant : hinderedWorld.Constant ⟨1⟩ := by
  have name : hinderedWorld.Constant ⟨0⟩ :=
    .intro (by decide) (Node.fixed_single rfl _ _) nofun nofun
  have parts : (hinderedWorld.node ⟨1⟩).parts = [⟨0⟩] := rfl
  refine .intro (by decide) (Node.fixed_single rfl _ _) ?_ ?_
  · rw [parts]
    decide
  · rw [parts]
    simpa using name

theorem hindered_reference : hinderedWorld.Reference ⟨0⟩ "x" ∧
    hinderedWorld.Reference ⟨1⟩ "(x)" := by
  have name : hinderedWorld.Reference ⟨0⟩ "x" := .of_shown (fun _ => "") nofun (by decide +kernel)
  refine ⟨name, .of_shown (fun _ => "x") (fun u part => ?_) (by decide +kernel)⟩
  have parts : (hinderedWorld.node ⟨1⟩).parts = [⟨0⟩] := rfl
  rw [parts, List.mem_singleton] at part
  rw [part]
  exact name

/-- A name is not rendered as such while it is being asked whether it is a block, and a list that is
    rendered meanwhile stays wrong. So does the name once a rule has made a block of it, which code
    has registered in the course of a rendering. -/
theorem hindered_renderings_differ :
    (∀ v key, hinderedWorld.remembered v key = none) ∧
    hinderedWorld.Standard ⟨0⟩ ∧ hinderedWorld.Standard ⟨1⟩ ∧ hinderedWorld.Constant ⟨1⟩ ∧
    hinderedWorld.Reference ⟨0⟩ "x" ∧ hinderedWorld.Reference ⟨1⟩ "(x)" ∧
    (∃ stack, CallStack.fresh.derive ⟨0⟩ Key.block.id = .ok stack ∧
      (∃ after, ((⟨0⟩ : Value).format ⟨⟨0⟩, stack⟩).Ends inert hinderedWorld "<value>" after) ∧
      ∃ after, (do
        let _ ← (⟨1⟩ : Value).format ⟨⟨0⟩, stack⟩
        (⟨1⟩ : Value).format ⟨⟨0⟩, .fresh⟩).Ends inert hinderedWorld "(<value>)" after) ∧
    ∃ after, (do
      let _ ← (⟨2⟩ : Value).format ⟨⟨1⟩, .fresh⟩
      (⟨0⟩ : Value).format ⟨⟨0⟩, .fresh⟩).Ends reclassifying hinderedWorld "<block>" after ∧
      after.Standard ⟨0⟩ := by
  refine ⟨?_, rfl, rfl, hindered_constant, hindered_reference.1, hindered_reference.2,
    ⟨_, rfl, ⟨_, 2, rfl⟩, ⟨_, 3, rfl⟩⟩, ⟨_, ⟨4, rfl⟩, rfl⟩⟩
  rintro ⟨_ | _ | _ | id⟩ key <;> rfl

end TraitDispatch
