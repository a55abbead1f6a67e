import TraitDispatch.Proofs.Inquiry
import TraitDispatch.Proofs.Reduction
import TraitDispatch.Proofs.Refinement

/- Built-in programs keep to the contract, whatever the programs that they ask for come to, as long
   as these keep to it as well. Where one can fail for want of an answer, the failure has to be fair
   if the answer is lacking. -/
namespace TraitDispatch
variable {H : Host} {α β : Type} {g : Setting H} {w mid after : World H} {v : Value}
  {k : Kind} {ctx : Context} {still : Prop} {fair : Failure → Prop}

theorem name_of_expander {n : Node H} {t : Term} {parts : List (Value × Term)} {m : Name}
    {l : Option Location} (layer : Term.Layer n t parts)
    (found : n.answer? Key.expand = some (.name m l)) : n.form? Key.name = some m := by
  cases layer with
  | name m l =>
    cases found
    rfl
  | _ => cases found

namespace World.Within
variable {N : Name → Prop} (within : w.Within N v)
include within

theorem made : w.Made v := by
  obtain ⟨t, bears, -⟩ := within
  exact bears.made

theorem named_target {f : Assigner H.Code} (found : (w.node v).answer? Key.assign = some f) :
    ∃ n, f = .name n ∧ N n := by
  obtain ⟨t, parts, -, layer, -⟩ := within.layered
  have named := form_name_of_layer layer
  rw [assigner_of_layer layer] at found
  obtain ⟨n, own, rfl⟩ := Option.map_eq_some_iff.mp found
  exact ⟨n, rfl, within.own_name (named.trans own)⟩

theorem unnamed (absent : (w.node v).answer? Key.assign = none) :
    (w.node v).form? Key.name = none := by
  obtain ⟨t, parts, -, layer, -⟩ := within.layered
  rw [assigner_of_layer layer] at absent
  rw [form_name_of_layer layer]
  exact Option.map_eq_none_iff.mp absent

theorem answers_name : (w.node v).answer? Key.name = (w.node v).form? Key.name := by
  obtain ⟨t, parts, -, layer, -⟩ := within.layered
  rw [name_of_layer layer, form_name_of_layer layer]

end World.Within

theorem World.Proceeds.all {N : Name → Prop} {e : EnvironmentId} {still : Prop}
    {values : List Value} (proceeds : w.Proceeds N e still after)
    (each : ∀ x ∈ values, w.Within N x) : ∀ x ∈ values, after.Within N x := fun x member =>
  (each x member).moved proceeds.toKeepsBearings

theorem World.Proceeds.rows {N : Name → Prop} {e : EnvironmentId} {still : Prop}
    {rows : List (List Value)} (proceeds : w.Proceeds N e still after)
    (each : ∀ row ∈ rows, ∀ x ∈ row, w.Within N x) : ∀ row ∈ rows, ∀ x ∈ row, after.Within N x :=
  fun row member => proceeds.all (each row member)

def Failure.Covers (g : Setting H) (fair : Failure → Prop) : Prop := ∀ f, g.Fair f → fair f

theorem Failure.Covers.custom (covers : Failure.Covers g fair) (message : String) (b : Backtrace) :
    fair (.withTrace (.of (.custom message)) b) := covers _ (.custom rfl)

section Making
variable {s : CallStack} (fences : w.Fences g.named g.environment)
include fences

theorem create_endsFairly {node : Node H} (about : node.Over g.named (w.Within g.named)) :
    (Program.create node).EndsFairly g still s fair w fun v after => after.Within g.named v :=
  .access (.create node) trivial (.created fences node) (.create about)

theorem createEmpty_endsFairly :
    (Program.createEmpty : Program H Value).EndsFairly g still s fair w
      fun v after => after.Within g.named v :=
  create_endsFairly fences (.empty none)

theorem createList_endsFairly {items : List Value} (each : ∀ x ∈ items, w.Within g.named x) :
    (createList items).EndsFairly g still s fair w fun v after =>
      after.Within g.named v ∧ ∃ l, after.node v = .single Key.list ⟨items⟩ l := by
  have listed : ∀ l, (Program.create (.single Key.list ⟨items⟩ l)).EndsFairly g still s fair w
      fun v after => after.Within g.named v ∧ ∃ l, after.node v = .single Key.list ⟨items⟩ l :=
    fun l => .access (.create _) trivial (.created fences _)
      ⟨.create (.list l each), l, World.node_new w _⟩
  cases items with
  | nil => exact listed none
  | cons first rest =>
    refine (Program.EndsFairly.location first fences).bind fun l mid proceeds found => ?_
    obtain ⟨-, rfl⟩ := found
    exact listed l

theorem bundle_endsFairly {items : List Value} (each : ∀ x ∈ items, w.Within g.named x) :
    (bundle items).EndsFairly g still s fair w fun v after =>
      after.Within g.named v ∧ ∀ x, items = [x] → v = x := by
  have listed : (∀ x, items ≠ [x]) → (createList items).EndsFairly g still s fair w fun v after =>
      after.Within g.named v ∧ ∀ x, items = [x] → v = x := fun several =>
    (createList_endsFairly fences each).imp fun v after made =>
      ⟨made.1, fun x same => absurd same (several x)⟩
  match items, each, listed with
  | [single], each, _ =>
    exact .done fences ⟨each single (List.mem_singleton_self single), fun x same => by
      cases same
      rfl⟩
  | [], _, listed => exact listed nofun
  | first :: second :: rest, _, listed => exact listed nofun

theorem printLine_endsFairly (placed : ctx.Placed g) (line : String) :
    (printLine line ctx).EndsFairly g False s fair w fun _ _ => True := by
  have looked : (Program.access (.environment ctx.environment)).EndsFairly g False s fair w
      fun _ _ => True := .access (.environment ctx.environment) trivial (.same fences) trivial
  refine looked.bind fun environment mid proceeds _ => ?_
  have fences := proceeds.fences
  rw [placed.environment]
  cases environment.output with
  | some output =>
    exact .access (.print output line) trivial
      (.idled fences (mid.keepsControl_print line output)) trivial
  | none =>
    have directed : (Program.access (.setOutput g.environment .console)).EndsFairly g False s fair
        mid fun _ _ => True :=
      .access (.setOutput g.environment .console) trivial
        (.idled fences (World.keepsControl_output fences.made .console)) trivial
    refine directed.bind fun _ last later _ => ?_
    exact .access (.print .console line) trivial
      (.idled later.fences (last.keepsControl_print line .console)) trivial

theorem defineMacro_endsFairly {parameter : Value} (held : w.Within g.named parameter) :
    (defineMacro parameter).EndsFairly g still s fair w fun v after => after.Within g.named v :=
  create_endsFairly fences (.definerOf none held)

theorem defineMacroOf_endsFairly {parameter body : Value} (named : w.Within g.named parameter)
    (held : w.Within g.named body) :
    (defineMacroOf parameter body).EndsFairly g still s fair w fun v after =>
      after.Within g.named v := by
  refine (Program.EndsFairly.location parameter fences).bind fun l mid proceeds found => ?_
  obtain ⟨-, rfl⟩ := found
  exact create_endsFairly fences (.definition l named held)

end Making

theorem Context.Ready.enter (ready : ctx.Ready g) (free : ctx.stack.atLimit = false)
    (label : String) (location : Option Location) :
    (ctx.withStack (ctx.stack.enter label location)).Ready g where
  environment := ready.environment
  limit := (limit_enter _ _ _).trans ready.limit
  sound := ready.sound.enter free label location
  idle := (active_enter _ _ _).trans ready.idle

section Asking
variable (fences : w.Fences g.named g.environment) (ready : ctx.Ready g)
  (within : w.Within g.named v)
include fences ready within

theorem ready_format_satisfies :
    (v.format ctx).Satisfies g.contract w fun _ after => w.LearnsAnswers True after := by
  obtain ⟨t, bears, -⟩ := within
  exact format_satisfies fences ready.toPlaced bears ready.calm (ready.deeper t)

theorem format_endsFairly :
    (v.format ctx).lift.EndsFairly g still ctx.stack fair w fun _ after =>
      w.LearnsAnswers True after :=
  .lift ((ready_format_satisfies fences ready within).weaken fun _ _ learns =>
    ⟨.learnt fences learns, learns⟩)

theorem ready_answer?_endsFairly {key : Key k} (regular : key.Regular) :
    (v.answer? key ctx).EndsFairly g still ctx.stack fair w fun a after =>
      w.LearnsAnswers True after ∧ a = (w.node v).answer? key := by
  obtain ⟨t, bears, -⟩ := within
  exact answer?_endsFairly fences ready.toPlaced bears regular (.regular ready.calm regular.id)

theorem answer_endsFairly {key : Key k} (regular : key.Regular)
    (missed : (w.node v).answer? key = none →
      fair (.withTrace (.of (.missingTrait key.label)) ctx.stack.backtrace)) :
    (v.answer key ctx).EndsFairly g still ctx.stack fair w fun a after =>
      w.LearnsAnswers True after ∧ (w.node v).answer? key = some a := by
  refine (ready_answer?_endsFairly fences ready within regular).bind fun a mid proceeds found => ?_
  obtain ⟨learns, rfl⟩ := found
  cases found : (w.node v).answer? key with
  | none => exact .fail proceeds.fences ready.sound nofun (missed found)
  | some a => exact .done proceeds.fences ⟨learns, rfl⟩

theorem answers_endsFairly {key : Key k} (regular : key.Regular) :
    (v.answers key ctx).EndsFairly g still ctx.stack fair w fun a after =>
      w.LearnsAnswers True after ∧ a = ((w.node v).answer? key).isSome :=
  (ready_answer?_endsFairly fences ready within regular).bind fun _ _ proceeds found =>
    .done proceeds.fences ⟨found.1, congrArg Option.isSome found.2⟩

end Asking

section Entering

theorem enter_satisfies {label : Act H String} {location : Option Location}
    {f : Context → Program H α} {p : String → Prop} {q : Except Failure α → World H → Prop}
    (free : ctx.stack.atLimit = false) (some : ∃ text, p text)
    (labelled : label.Satisfies g.contract w fun text after => w.LearnsAnswers True after ∧ p text)
    (rest : ∀ text mid, p text → w.LearnsAnswers True mid →
      (f (ctx.withStack (ctx.stack.enter text location))).Satisfies g.contract mid q) :
    (ctx.enter label location >>= f).Satisfies g.contract w q := by
  unfold Context.enter
  rw [free, if_neg Bool.false_ne_true]
  cases recording : ctx.stack.recording with
  | true =>
    rw [if_pos rfl, bind_assoc]
    refine Program.Satisfies.bind (Program.Satisfies.lift labelled) (fun text mid found => ?_)
      fun _ mid found => ?_
    · obtain ⟨_, same, learns, named⟩ := found
      cases same
      exact rest text mid named learns
    · cases found.choose_spec.1
  | false =>
    obtain ⟨text, named⟩ := some
    rw [if_neg Bool.false_ne_true, CallStack.enter_quiet recording "" text]
    exact rest text w named (.same w)

variable (fences : w.Fences g.named g.environment) (ready : ctx.Ready g)
include fences ready

theorem enter_full {label : Act H String} {location : Option Location}
    {f : Context → Program H α} {good : α → World H → Prop} (full : ctx.stack.atLimit = true) :
    (ctx.enter label location >>= f).EndsFairly g still ctx.stack fair w good := by
  unfold Context.enter
  rw [full, if_pos rfl]
  exact .failed fences (Failure.traces_limit ready.sound full) (.inl (Failure.spent_limit _))

theorem entry_satisfies (free : ctx.stack.atLimit = false) (within : w.Within g.named v)
    (label : String → String) {f : Context → Program H α} {good : α → World H → Prop}
    (rest : ∀ inner mid, w.LearnsAnswers True mid → inner.Ready g →
      (f inner).EndsFairly g still inner.stack fair mid good) :
    (v.location >>= fun location => ctx.enter (do return label (← v.format ctx)) location >>=
      f).Satisfies g.contract w fun r after => ∃ shown, Outcome g still
        (ctx.stack.enter (label shown) (w.node v).location) fair w good r after := by
  refine Program.Satisfies.bind (Program.satisfies_location v) (fun l mid found => ?_)
    fun f mid found => nomatch found.1
  obtain ⟨same, rfl⟩ := found
  cases same
  have labelled : (do return label (← v.format ctx) : Act H String).Satisfies g.contract mid
      fun text after => mid.LearnsAnswers True after ∧ ∃ shown, text = label shown :=
    (ready_format_satisfies fences ready within).bind fun shown last learns =>
      Act.Satisfies.done ⟨learns, shown, rfl⟩
  refine enter_satisfies free ⟨_, "", rfl⟩ labelled fun text last named learns => ?_
  obtain ⟨shown, rfl⟩ := named
  refine Program.Satisfies.weaken
    (rest _ last learns (ready.enter free _ _)) fun r after found => ?_
  exact ⟨shown, found.later (.learnt fences learns)⟩

theorem entry_full (v : Value) {label : Act H String} {f : Context → Program H α}
    {good : α → World H → Prop} (full : ctx.stack.atLimit = true) :
    (v.location >>= fun location => ctx.enter label location >>= f).EndsFairly g still ctx.stack
      fair w good :=
  (Program.EndsFairly.location v fences).bind fun _ _ proceeds _ =>
    enter_full proceeds.fences ready full

omit fences ready in
theorem entered_endsFairly {m : Program H α} {label : String → String} {location : Option Location}
    {good : α → World H → Prop} (enters : m.Satisfies g.contract w fun r after =>
      ∃ shown, Outcome g still (ctx.stack.enter (label shown) location) fair w good r after) :
    m.EndsFairly g still ctx.stack fair w good :=
  Program.Satisfies.weaken enters fun _ _ ⟨_, outcome⟩ => outcome.outer (CallStack.leads_enter ..)

end Entering

section Requesting
variable (fences : w.Fences g.named g.environment) (ready : ctx.Ready g)
  (covers : Failure.Covers g fair)
include fences ready covers

theorem call_endsFairly {f : Function H.Code} {argument : Value} (about : f.Over (w.Within g.named))
    (held : w.Within g.named argument) :
    (Program.call f argument ctx).EndsFairly g False ctx.stack fair w fun v after =>
      after.Within g.named v :=
  Act.Satisfies.request (.call fences ready about held) fun _ _ outcome =>
    Outcome.weaken outcome id covers fun _ _ _ holds => holds

theorem evaluate_endsFairly {f : Evaluator H.Code} (about : f.Over (w.Within g.named)) :
    (Program.evaluate f ctx).EndsFairly g False ctx.stack fair w fun v after =>
      after.Within g.named v :=
  Act.Satisfies.request (.evaluate fences ready about) fun _ _ outcome =>
    Outcome.weaken outcome id covers fun _ _ _ holds => holds

theorem expand_endsFairly {f : Expander H.Code} {parameter replacement : Value}
    (about : f.Over (w.Within g.named)) (named : ∀ n l, f = .name n l → g.named n)
    (parameter_held : w.Within g.named parameter) (held : w.Within g.named replacement) :
    (Program.expand f parameter replacement ctx).EndsFairly g True ctx.stack fair w fun v after =>
      after.Within g.named v ∧ f.EndsHolding (after.node v) :=
  Act.Satisfies.request (.expand fences ready about named parameter_held held) fun _ _ outcome =>
    Outcome.weaken outcome id covers fun _ _ _ holds => holds

theorem assign_endsFairly {n : Name} {value : Value} (named : g.named n)
    (marked : g.named assignmentMark) (held : w.Within g.named value) :
    (Program.assign (.name n) value ctx).EndsFairly g False ctx.stack fair w fun _ _ => True :=
  Act.Satisfies.request (.assign fences ready named marked held) fun _ _ outcome =>
    Outcome.weaken outcome id covers fun _ _ _ holds => holds

end Requesting

namespace Value
section Protocol
variable (fences : w.Fences g.named g.environment) (ready : ctx.Ready g)
  (covers : Failure.Covers g fair) (within : w.Within g.named v)
include fences ready covers within

section Entered
variable (free : ctx.stack.atLimit = false)
include free

theorem evaluate_enters
    (missed : (w.node v).answer? Key.evaluate = none →
      ∀ f : Failure, f.cause = .missingTrait Key.evaluate.label → fair f) :
    (v.evaluate ctx).Satisfies g.contract w fun r after => ∃ shown : String, Outcome g False
      (ctx.stack.enter s!"evaluating {shown}" (w.node v).location) fair w
      (fun v after => after.Within g.named v) r after := by
  refine entry_satisfies fences ready free within _ fun inner mid learns ready' => ?_
  have within' := within.moved (learns.keepsBearings g.environment)
  obtain ⟨t, parts, known, layer, each⟩ := within'.layered
  rw [← learns.node] at missed
  refine (answer_endsFairly (fences.learnt learns) ready' within' ⟨rfl, by decide⟩
    fun none => missed none _ rfl).bind fun f last proceeds found => ?_
  exact evaluate_endsFairly proceeds.fences ready' covers
    (layer.evaluator_over (fun q member => (each q member).moved proceeds.toKeepsBearings) found.2)

theorem expand_enters {parameter replacement : Value} (named : w.Within g.named parameter)
    (held : w.Within g.named replacement)
    (missed : (w.node v).answer? Key.expand = none →
      ∀ f : Failure, f.cause = .missingTrait Key.expand.label → fair f) :
    (v.expand parameter replacement ctx).Satisfies g.contract w fun r after => ∃ shown : String,
      Outcome g True (ctx.stack.enter s!"expanding {shown}" (w.node v).location) fair w
      (fun u after => after.Within g.named u ∧
        ∀ f, (w.node v).answer? Key.expand = some f → f.EndsHolding (after.node u)) r after := by
  refine entry_satisfies fences ready free within _ fun inner mid learns ready' => ?_
  have within' := within.moved (learns.keepsBearings g.environment)
  obtain ⟨t, parts, known, layer, each⟩ := within'.layered
  rw [← learns.node] at missed
  refine (answer_endsFairly (fences.learnt learns) ready' within' ⟨rfl, by decide⟩
    fun none => missed none _ rfl).bind fun f last proceeds found => ?_
  have moves := (learns.keepsBearings g.environment).trans proceeds.toKeepsBearings
  have about := layer.expander_over
    (fun q member => (each q member).moved proceeds.toKeepsBearings) found.2
  have among : ∀ n l, f = .name n l → g.named n := fun n l same =>
    within'.own_name (name_of_expander layer (same ▸ found.2))
  refine (TraitDispatch.expand_endsFairly proceeds.fences ready' covers about among
    (named.moved moves) (held.moved moves)).imp fun u after holds => ⟨holds.1, fun f' same => ?_⟩
  rw [← learns.node, found.2] at same
  cases same
  exact holds.2

theorem call_enters {argument : Value} (held : w.Within g.named argument) :
    (v.call argument ctx).Satisfies g.contract w fun r after => ∃ shown : String, Outcome g False
      (ctx.stack.enter s!"calling {shown}" (w.node v).location) fair w
      (fun v after => after.Within g.named v) r after := by
  refine entry_satisfies fences ready free within _ fun inner mid learns ready' => ?_
  have within' := within.moved (learns.keepsBearings g.environment)
  obtain ⟨t, parts, known, layer, each⟩ := within'.layered
  refine (ready_answer?_endsFairly (fences.learnt learns) ready' within' ⟨rfl, by decide⟩).bind
    fun a last proceeds found => ?_
  cases a with
  | some f =>
    exact call_endsFairly proceeds.fences ready' covers
      (layer.function_over known (fun q member => (each q member).moved proceeds.toKeepsBearings)
        found.2.symm)
      (held.moved ((learns.keepsBearings g.environment).trans proceeds.toKeepsBearings))
  | none =>
    refine (format_endsFairly proceeds.fences ready' (within'.moved proceeds.toKeepsBearings)).bind
      fun rendered final later _ => ?_
    exact .fail later.fences ready'.sound nofun (covers.custom _ _)

end Entered

theorem evaluate_endsFairly
    (missed : (w.node v).answer? Key.evaluate = none →
      ∀ f : Failure, f.cause = .missingTrait Key.evaluate.label → fair f) :
    (v.evaluate ctx).EndsFairly g False ctx.stack fair w fun v after => after.Within g.named v := by
  cases free : ctx.stack.atLimit with
  | true => exact entry_full fences ready v free
  | false => exact entered_endsFairly (evaluate_enters fences ready covers within free missed)

theorem expand_endsFairly {parameter replacement : Value} (named : w.Within g.named parameter)
    (held : w.Within g.named replacement)
    (missed : (w.node v).answer? Key.expand = none →
      ∀ f : Failure, f.cause = .missingTrait Key.expand.label → fair f) :
    (v.expand parameter replacement ctx).EndsFairly g True ctx.stack fair w fun u after =>
      after.Within g.named u ∧
        ∀ f, (w.node v).answer? Key.expand = some f → f.EndsHolding (after.node u) := by
  cases free : ctx.stack.atLimit with
  | true => exact entry_full fences ready v free
  | false =>
    exact entered_endsFairly (expand_enters fences ready covers within free named held missed)

theorem call_endsFairly {argument : Value} (held : w.Within g.named argument) :
    (v.call argument ctx).EndsFairly g False ctx.stack fair w fun v after =>
      after.Within g.named v := by
  cases free : ctx.stack.atLimit with
  | true => exact entry_full fences ready v free
  | false => exact entered_endsFairly (call_enters fences ready covers within free held)

theorem evaluateOrSelf_endsFairly :
    (v.evaluateOrSelf ctx).EndsFairly g False ctx.stack fair w
      fun v after => after.Within g.named v := by
  have regular : Key.evaluate.Regular := ⟨rfl, by decide⟩
  refine (answers_endsFairly fences ready within regular).bind fun able mid proceeds found => ?_
  obtain ⟨learns, same⟩ := found
  have within' := within.moved proceeds.toKeepsBearings
  cases able with
  | true =>
    refine evaluate_endsFairly proceeds.fences ready covers within' fun none => ?_
    rw [learns.node] at none
    simp [none] at same
  | false => exact .done proceeds.fences within'

theorem expandOrSelf_endsFairly {parameter replacement : Value} (named : w.Within g.named parameter)
    (held : w.Within g.named replacement) :
    (v.expandOrSelf parameter replacement ctx).EndsFairly g True ctx.stack fair w
      fun v after => after.Within g.named v := by
  have regular : Key.expand.Regular := ⟨rfl, by decide⟩
  refine (answers_endsFairly fences ready within regular).bind fun able mid proceeds found => ?_
  obtain ⟨learns, same⟩ := found
  have within' := within.moved proceeds.toKeepsBearings
  cases able with
  | true =>
    refine (expand_endsFairly proceeds.fences ready covers within'
      (named.moved proceeds.toKeepsBearings)
      (held.moved proceeds.toKeepsBearings) fun none => ?_).imp fun _ _ holds => holds.1
    rw [learns.node] at none
    simp [none] at same
  | false => exact .done proceeds.fences within'

end Protocol
end Value

namespace World.Splits
variable {N : Name → Prop} {items left right : List Value} (splits : w.Splits items left right)
include splits

theorem earlier (learns : mid.LearnsAnswers True w) : mid.Splits items left right where
  marked := by simpa only [learns.node] using splits.marked
  first := by simpa only [learns.node] using splits.first

theorem within (each : ∀ x ∈ items, w.Within N x) :
    (∀ x ∈ left, w.Within N x) ∧ (∀ x ∈ right, w.Within N x) ∧ N assignmentMark := by
  obtain ⟨mark, rfl, marked⟩ := splits.marked
  rw [List.forall_mem_append, List.forall_mem_cons] at each
  obtain ⟨targets, between, sources⟩ := each
  exact ⟨targets, sources, between.own_name marked⟩

end World.Splits
section Evaluating
variable (fences : w.Fences g.named g.environment) (ready : ctx.Ready g)
include fences ready

theorem splitAssignment_endsFairly {passed items : List Value}
    (before : ∀ x ∈ passed, (w.node x).form? Key.name ≠ some assignmentMark)
    (each : ∀ x ∈ items, w.Within g.named x) :
    (splitAssignment passed items ctx).EndsFairly g still ctx.stack fair w fun r after =>
      w.LearnsAnswers True after ∧ ∀ left right, r = some (left, right) →
        w.Splits (passed.reverse ++ items) left right := by
  induction items generalizing passed w with
  | nil => exact .done fences ⟨.same w, nofun⟩
  | cons item rest ih =>
    obtain ⟨here, there⟩ := List.forall_mem_cons.mp each
    refine (ready_answer?_endsFairly fences ready here ⟨rfl, by decide⟩).bind
      fun name mid proceeds found => ?_
    obtain ⟨learns, same⟩ := found
    rw [here.answers_name] at same
    by_cases mark : name = some assignmentMark
    · rw [if_pos mark]
      refine .done proceeds.fences ⟨learns, fun left right found => ?_⟩
      cases found
      exact ⟨⟨item, rfl, same.symm.trans mark⟩, fun x member =>
        before x (List.mem_reverse.mp member)⟩
    · rw [if_neg mark]
      have passed_by : ∀ x ∈ item :: passed, (mid.node x).form? Key.name ≠ some assignmentMark := by
        simp only [learns.node]
        exact List.forall_mem_cons.mpr ⟨fun marked => mark (same.trans marked), before⟩
      refine (ih proceeds.fences passed_by (proceeds.all there)).imp fun r after found => ?_
      obtain ⟨learns', splits⟩ := found
      refine ⟨learns.trans learns', fun left right found => ?_⟩
      have earlier := (splits left right found).earlier learns
      rwa [List.reverse_cons, List.append_assoc] at earlier

variable (covers : Failure.Covers g fair)
include covers

theorem evaluateAssignment_endsFairly {left right : List Value}
    (targets : ∀ x ∈ left, w.Within g.named x) (sources : ∀ x ∈ right, w.Within g.named x)
    (marked : g.named assignmentMark)
    (missed : left ≠ [] → right ≠ [] → (∀ x, left = [x] → (w.node x).form? Key.name = none) →
      ∀ f : Failure, f.cause = .missingTrait Key.assign.label → fair f) :
    (evaluateAssignment left right ctx).EndsFairly g False ctx.stack fair w
      fun v after => after.Within g.named v := by
  unfold evaluateAssignment
  split
  · exact .fail fences ready.sound nofun (covers.custom _ _)
  rename_i filled
  simp only [Bool.or_eq_true, List.isEmpty_iff, not_or] at filled
  refine (bundle_endsFairly fences targets).bind fun target w₁ first found => ?_
  obtain ⟨target_within, single⟩ := found
  refine (bundle_endsFairly first.fences (first.all sources)).bind fun operand w₂ second found => ?_
  refine (Value.evaluateOrSelf_endsFairly second.fences ready covers found.1).bind
    fun value w₃ third value_within => ?_
  have moves := second.toKeepsBearings.trans third.toKeepsBearings
  refine (answer_endsFairly third.fences ready (target_within.moved moves) ⟨rfl, by decide⟩
    fun none => ?_).bind fun assigner w₄ fourth found => ?_
  · refine missed filled.1 filled.2 (fun x same => ?_) _ rfl
    obtain rfl := single x same
    have made := (targets target (by simp [same])).made
    rw [← (first.toKeepsBearings.trans moves).node target made]
    exact (target_within.moved moves).unnamed none
  · obtain ⟨n, rfl, named⟩ := (target_within.moved moves).named_target found.2
    refine (assign_endsFairly fourth.fences ready covers named marked
      (value_within.moved fourth.toKeepsBearings)).bind fun _ last fifth _ => ?_
    exact createEmpty_endsFairly fifth.fences

theorem callAll_endsFairly {function : Value} {arguments : List Value}
    (within : w.Within g.named function) (each : ∀ x ∈ arguments, w.Within g.named x) :
    (callAll function arguments ctx).EndsFairly g False ctx.stack fair w
      fun v after => after.Within g.named v := by
  induction arguments generalizing function w with
  | nil => exact .done fences within
  | cons argument rest ih =>
    obtain ⟨here, there⟩ := List.forall_mem_cons.mp each
    refine (Value.call_endsFairly fences ready covers within here).bind
      fun result mid proceeds holds => ?_
    exact ih proceeds.fences holds (proceeds.all there)

theorem ListForm.evaluate_endsFairly {l : ListForm} (each : ∀ x ∈ l.items, w.Within g.named x)
    (missed : ∀ left right, w.Splits l.items left right → left ≠ [] → right ≠ [] →
      (∀ x, left = [x] → (w.node x).form? Key.name = none) →
      ∀ f : Failure, f.cause = .missingTrait Key.assign.label → fair f) :
    (l.evaluate ctx).EndsFairly g False ctx.stack fair w fun v after => after.Within g.named v := by
  refine (splitAssignment_endsFairly fences ready (List.forall_mem_nil _) each).bind
    fun split mid proceeds found => ?_
  obtain ⟨learns, splits⟩ := found
  have each' := proceeds.all each
  cases split with
  | some sides =>
    obtain ⟨left, right⟩ := sides
    have here := splits left right rfl
    obtain ⟨targets, sources, marked⟩ := here.within each
    refine evaluateAssignment_endsFairly proceeds.fences ready covers (proceeds.all targets)
      (proceeds.all sources) marked fun target value unnamed => ?_
    simp only [learns.node] at unnamed
    exact missed left right here target value unnamed
  | none =>
    obtain ⟨items⟩ := l
    cases items with
    | nil => exact createEmpty_endsFairly proceeds.fences
    | cons head arguments =>
      obtain ⟨here, there⟩ := List.forall_mem_cons.mp each'
      refine (Value.evaluateOrSelf_endsFairly proceeds.fences ready covers here).bind
        fun function last later holds => ?_
      exact callAll_endsFairly later.fences ready covers holds (later.all there)

theorem evaluateStatements_endsFairly {result : Value} {rows : List (List Value)}
    (within : w.Within g.named result) (each : ∀ row ∈ rows, ∀ x ∈ row, w.Within g.named x) :
    (evaluateStatements result rows ctx).EndsFairly g False ctx.stack fair w
      fun v after => after.Within g.named v := by
  induction rows generalizing result w with
  | nil => exact .done fences within
  | cons row rest ih =>
    obtain ⟨here, there⟩ := List.forall_mem_cons.mp each
    refine (createList_endsFairly fences here).bind fun list mid proceeds made => ?_
    obtain ⟨held, l, node⟩ := made
    refine (Value.evaluate_endsFairly proceeds.fences ready covers held fun none => ?_).bind
      fun value last later holds => ih later.fences holds (later.rows (proceeds.rows there))
    rw [node] at none
    cases none

theorem Block.evaluate_endsFairly {b : Block}
    (each : ∀ row ∈ b.statements, ∀ x ∈ row, w.Within g.named x) :
    (b.evaluate ctx).EndsFairly g False ctx.stack fair w fun v after => after.Within g.named v :=
  (createEmpty_endsFairly fences).bind fun _ _ proceeds held =>
    evaluateStatements_endsFairly proceeds.fences ready covers held (proceeds.rows each)

theorem Name.evaluate_endsFairly (n : Name) :
    (n.evaluate ctx).EndsFairly g False ctx.stack fair w fun v after => after.Within g.named v := by
  cases free : ctx.stack.atLimit with
  | true => exact enter_full fences ready free
  | false =>
    have labelled : (return s!"resolving variable '{n.name}'" : Act H String).Satisfies g.contract w
        fun text after => w.LearnsAnswers True after ∧ text = s!"resolving variable '{n.name}'" :=
      Act.Satisfies.done ⟨.same w, rfl⟩
    refine enter_satisfies free ⟨_, rfl⟩ labelled fun text mid _ learns => ?_
    have ready' := ready.enter free text none
    have fences' := fences.learnt learns
    have proceeds : w.Proceeds g.named g.environment False mid := .learnt fences learns
    have looked : (Program.access (.environment ctx.environment)).EndsFairly g False ctx.stack fair
        mid fun environment after => after = mid ∧ environment = mid.environment g.environment := by
      rw [ready.environment]
      exact .access (.environment g.environment) trivial (.same fences') ⟨rfl, rfl⟩
    refine Program.Satisfies.weaken (looked.bind fun environment last _ found => ?_)
      fun _ _ outcome => outcome.later proceeds
    obtain ⟨rfl, rfl⟩ := found
    cases bound : (last.environment g.environment).lookup n.name with
    | some value => exact .done fences' (fences'.bound _ _ bound)
    | none =>
      refine Program.EndsFairly.outer (CallStack.leads_enter ctx.stack text none) ?_
      exact .fail fences' ready'.sound nofun (covers _ (.unbound rfl))

theorem display_endsFairly {argument : Value} (held : w.Within g.named argument) :
    (display argument ctx).EndsFairly g False ctx.stack fair w
      fun v after => after.Within g.named v := by
  refine (Value.evaluateOrSelf_endsFairly fences ready covers held).bind
    fun value w₁ first holds => ?_
  refine (format_endsFairly first.fences ready holds).bind fun line w₂ second _ => ?_
  refine (printLine_endsFairly second.fences ready.toPlaced line).bind fun _ w₃ third _ => ?_
  exact createEmpty_endsFairly third.fences

theorem Macro.apply_endsFairly {m : Macro} {argument : Value}
    (named : w.Within g.named m.parameter) (body : w.Within g.named m.body)
    (held : w.Within g.named argument)
    (missed : (w.node m.body).answer? Key.expand = none →
      ∀ f : Failure, f.cause = .missingTrait Key.expand.label → fair f) :
    (m.apply argument ctx).EndsFairly g False ctx.stack fair w
      fun v after => after.Within g.named v := by
  refine (Value.evaluateOrSelf_endsFairly fences ready covers held).bind
    fun replacement w₁ first holds => ?_
  rw [← first.node m.body body.made] at missed
  have expanded := Value.expand_endsFairly first.fences ready covers
    (body.moved first.toKeepsBearings)
    (named.moved first.toKeepsBearings) holds missed
  refine (expanded.weaken False.elim (fun _ => id) fun _ _ _ holds => holds.1).bind
    fun result w₂ second holds => ?_
  exact Value.evaluateOrSelf_endsFairly second.fences ready covers holds

end Evaluating

section Expanding
variable (fences : w.Fences g.named g.environment) (ready : ctx.Ready g)
  (covers : Failure.Covers g fair) {parameter replacement : Value}
  (named : w.Within g.named parameter) (held : w.Within g.named replacement)
include fences ready covers named held

theorem items_fare {items : List Value} (each : ∀ x ∈ items, w.Within g.named x) :
    (items.mapM fun item : Value => item.expandOrSelf parameter replacement ctx).EndsFairly g True
      ctx.stack fair w fun others after => ∀ x ∈ others, after.Within g.named x :=
  .mapM (fun moves holds => holds.moved moves) fences fun x member _ proceeds =>
    Value.expandOrSelf_endsFairly proceeds.fences ready covers
      ((each x member).moved proceeds.toKeepsBearings)
      (named.moved proceeds.toKeepsBearings) (held.moved proceeds.toKeepsBearings)

theorem ListForm.expand_endsFairly {l : ListForm} (each : ∀ x ∈ l.items, w.Within g.named x) :
    (l.expand parameter replacement ctx).EndsFairly g True ctx.stack fair w
      fun l after => ∀ x ∈ l.items, after.Within g.named x :=
  (items_fare fences ready covers named held each).bind fun _ _ proceeds others =>
    .done proceeds.fences others

theorem expandStatement_endsFairly {statement : List Value}
    (each : ∀ x ∈ statement, w.Within g.named x) :
    (expandStatement parameter replacement ctx statement).EndsFairly g True ctx.stack fair w
      fun items after => ∀ x ∈ items, after.Within g.named x := by
  refine (createList_endsFairly fences each).bind fun list mid proceeds made => ?_
  obtain ⟨listed, l, node⟩ := made
  have able : (mid.node list).answer? Key.expand = some (.list ⟨statement⟩ l) := by
    rw [node]
    rfl
  refine (Value.expand_endsFairly proceeds.fences ready covers listed
    (named.moved proceeds.toKeepsBearings)
    (held.moved proceeds.toKeepsBearings) fun none => ?_).bind fun expanded last later holds => ?_
  · rw [able] at none
    cases none
  · obtain ⟨within, yields⟩ := holds
    obtain ⟨items, l', node'⟩ := yields _ able
    refine (answer_endsFairly later.fences ready within ⟨rfl, by decide⟩ fun none => ?_).bind
      fun found after final same => .done final.fences ?_
    · rw [node'] at none
      cases none
    · obtain ⟨learns, same⟩ := same
      rw [← learns.node] at same
      obtain ⟨t, parts, known, layer, each'⟩ := (within.moved final.toKeepsBearings).layered
      exact layer.items_over each' same

theorem Block.expand_endsFairly {b : Block}
    (each : ∀ row ∈ b.statements, ∀ x ∈ row, w.Within g.named x) :
    (b.expand parameter replacement ctx).EndsFairly g True ctx.stack fair w
      fun b after => ∀ row ∈ b.statements, ∀ x ∈ row, after.Within g.named x := by
  have rows : (b.statements.mapM (expandStatement parameter replacement ctx)).EndsFairly g True
      ctx.stack fair w fun rows after => ∀ row ∈ rows, ∀ x ∈ row, after.Within g.named x :=
    .mapM (fun moves holds x member => (holds x member).moved moves) fences
      fun row member _ proceeds => expandStatement_endsFairly proceeds.fences ready covers
        (named.moved proceeds.toKeepsBearings) (held.moved proceeds.toKeepsBearings)
        (proceeds.all (each row member))
  exact rows.bind fun _ _ proceeds others => .done proceeds.fences others

theorem Quoted.expand_endsFairly {q : Quoted} (inner : w.Within g.named q.inner) :
    (q.expand parameter replacement ctx).EndsFairly g True ctx.stack fair w
      fun q after => after.Within g.named q.inner :=
  (Value.expandOrSelf_endsFairly fences ready covers inner named held).bind
    fun _ _ proceeds holds =>
    .done proceeds.fences holds

omit covers in
theorem Name.expand_endsFairly {n : Name} (l : Option Location) (among : g.named n) :
    (n.expand l parameter replacement ctx).EndsFairly g True ctx.stack fair w
      fun v after => after.Within g.named v := by
  refine (ready_answer?_endsFairly fences ready named ⟨rfl, by decide⟩).bind
    fun found mid proceeds _ => ?_
  split
  · exact .done proceeds.fences (held.moved proceeds.toKeepsBearings)
  · exact create_endsFairly proceeds.fences (.name l among)

theorem Expander.apply_endsFairly {f : Expander H.Code} (about : f.Over (w.Within g.named))
    (among : ∀ n l, f = .name n l → g.named n) :
    (f.apply g.behaviour parameter replacement ctx).EndsFairly g True ctx.stack fair
      w fun v after =>
      after.Within g.named v ∧ f.EndsHolding (after.node v) := by
  cases about with
  | block l each =>
    refine (Block.expand_endsFairly fences ready covers named held each).bind
      fun b mid proceeds each' => ?_
    exact (create_endsFairly proceeds.fences (.block l each')).imp
      fun _ _ holds => ⟨holds, trivial⟩
  | list l each =>
    refine (ListForm.expand_endsFairly fences ready covers named held each).bind
      fun items mid proceeds each' => ?_
    exact .access (.create _) trivial (.created proceeds.fences _)
      ⟨.create (.list l each'), items.items, l, World.node_new mid _⟩
  | name n l =>
    exact (Name.expand_endsFairly fences ready named held l (among n l rfl)).imp
      fun _ _ holds => ⟨holds, trivial⟩
  | quoted l inner =>
    refine (Quoted.expand_endsFairly fences ready covers named held (q := ⟨_⟩) inner).bind
      fun q mid proceeds holds => ?_
    exact (create_endsFairly proceeds.fences (.quoted l holds)).imp
      fun _ _ holds => ⟨holds, trivial⟩

end Expanding
section Answering
variable {r : Request H}

theorem evaluate_keeps {f : Evaluator H.Code} (fences : w.Fences g.named g.environment)
    (ready : ctx.Ready g) (about : f.Over (w.Within g.named)) (seen : g.seen ⟨.evaluate f ctx, w⟩) :
    (f.apply g.behaviour ctx).Satisfies g.contract w fun r after =>
      (Request.evaluate f ctx).Ends g.behaviour w r after → Outcome g False ctx.stack g.Fair w
        (fun v after => after.Within g.named v) r after := by
  have covers : Failure.Covers g g.Fair := fun _ => id
  cases about with
  | block each =>
    exact Program.Satisfies.weaken (Block.evaluate_endsFairly fences ready covers each)
      fun _ _ outcome _ => outcome
  | name n =>
    exact Program.Satisfies.weaken (Name.evaluate_endsFairly fences ready covers n)
      fun _ _ outcome _ => outcome
  | quoted inner =>
    have done : (pure _ : Program H Value).EndsFairly g False ctx.stack g.Fair w
        fun v after => after.Within g.named v := .done fences inner
    exact Program.Satisfies.weaken done fun _ _ outcome _ => outcome
  | @list l each =>
    have fares : (l.evaluate ctx).EndsFairly g False ctx.stack (fun f => g.Fair f ∨
        ∃ left right, w.Splits l.items left right ∧ left ≠ [] ∧ right ≠ [] ∧
          (∀ x, left = [x] → (w.node x).form? Key.name = none) ∧
          f.cause = .missingTrait Key.assign.label) w fun v after => after.Within g.named v :=
      ListForm.evaluate_endsFairly fences ready (fun _ => .inl) each
        fun left right splits target value unnamed f cause =>
          .inr ⟨left, right, splits, target, value, unnamed, cause⟩
    refine Program.Satisfies.weaken fares fun r after outcome ended =>
      ⟨outcome.proceeds, fun f same => ?_, outcome.gives⟩
    subst same
    refine (outcome.fails f rfl).imp_right (·.imp_right fun fair => ?_)
    rcases fair with earned | ⟨left, right, splits, target, value, unnamed, cause⟩
    · exact earned
    · exact .refused seen (.target splits target value unnamed cause ended)

theorem call_keeps {f : Function H.Code} {argument : Value}
    (fences : w.Fences g.named g.environment) (ready : ctx.Ready g)
    (about : f.Over (w.Within g.named)) (held : w.Within g.named argument)
    (seen : g.seen ⟨.call f argument ctx, w⟩) :
    (f.apply g.behaviour argument ctx).Satisfies g.contract w fun r after =>
      (Request.call f argument ctx).Ends g.behaviour w r after → Outcome g False ctx.stack g.Fair w
        (fun v after => after.Within g.named v) r after := by
  have covers : Failure.Covers g g.Fair := fun _ => id
  cases about with
  | display =>
    exact Program.Satisfies.weaken
      (display_endsFairly fences ready covers held) fun _ _ outcome _ => outcome
  | definer =>
    have defines : (defineMacro argument).EndsFairly g False ctx.stack g.Fair w _ :=
      defineMacro_endsFairly fences held
    exact Program.Satisfies.weaken defines fun _ _ outcome _ => outcome
  | definerOf named =>
    have defines : (defineMacroOf _ argument).EndsFairly g False ctx.stack g.Fair w _ :=
      defineMacroOf_endsFairly fences named held
    exact Program.Satisfies.weaken defines fun _ _ outcome _ => outcome
  | @application m named body =>
    have fares : (m.apply argument ctx).EndsFairly g False ctx.stack (fun f => g.Fair f ∨
        (w.node m.body).answer? Key.expand = none ∧ f.cause = .missingTrait Key.expand.label) w
        fun v after => after.Within g.named v :=
      Macro.apply_endsFairly fences ready (fun _ => .inl) named body held
        fun none f cause => .inr ⟨none, cause⟩
    refine Program.Satisfies.weaken fares fun r after outcome ended =>
      ⟨outcome.proceeds, fun f same => ?_, outcome.gives⟩
    subst same
    refine (outcome.fails f rfl).imp_right (·.imp_right fun fair => ?_)
    rcases fair with earned | ⟨none, cause⟩
    · exact earned
    · obtain ⟨t, bears, -⟩ := body
      have other : t.isSyntax = false := by
        cases bears with
        | intro _ _ _ layer _ =>
          rw [← expander_of_layer layer, none]
          rfl
      exact .refused seen (.body bears.spells bears.known other cause ended)

theorem assign_keeps {n : Name} {value : Value} (fences : w.Fences g.named g.environment)
    (ready : ctx.Ready g) (named : g.named n) (marked : g.named assignmentMark)
    (held : w.Within g.named value) :
    (n.assign value ctx : Program H Unit).EndsFairly g False ctx.stack g.Fair
    w fun _ _ => True := by
  rw [Name.assign, ready.environment]
  exact .access (.define g.environment n.name value) ⟨rfl, named, marked⟩
    (.defined fences held named marked) trivial

end Answering

/-- Built-in programs keep to the contract. -/
theorem Setting.kept (g : Setting H) : g.contract.Kept g.behaviour g.seen where
  at_once r w a after due at_once ended := by
    cases due with
    | resolve fences placed bears permits =>
      exact resolved_at_once fences placed bears permits at_once ended
    | access =>
      obtain ⟨fuel, answered⟩ := ended
      rw [respond_access] at answered
      exact (Option.some.inj answered).symm
    | _ => cases at_once
  runs r w body due seen runs := by
    cases due with
    | resolve fences placed bears permits =>
      exact resolved_of_body fences placed bears permits runs
    | call fences ready about held =>
      cases runs
      exact call_keeps fences ready about held seen
    | evaluate fences ready about =>
      cases runs
      exact evaluate_keeps fences ready about seen
    | expand fences ready about named parameter_held held =>
      cases runs
      exact Program.Satisfies.weaken
        (Expander.apply_endsFairly fences ready (fun _ => id) parameter_held held
        about named) fun _ _ outcome _ => outcome
    | assign fences ready named marked held =>
      cases runs
      exact Program.Satisfies.weaken (assign_keeps fences ready named marked held)
        fun _ _ outcome _ => outcome
    | access => cases runs

end TraitDispatch
