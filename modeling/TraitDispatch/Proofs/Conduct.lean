import TraitDispatch.Proofs.Contract
import TraitDispatch.Proofs.Naming

/- What is agreed on for the requests of built-in programs. They are put in environments that hold
   built-in values only, and with stacks whose frames are the entries made, while nothing is being
   derived that could be asked for again. What comes of them binds no names but those that occur in
   the values at hand, and a failure shows the frames of the stack and of the entries made since. -/
namespace TraitDispatch
variable {H : Host} {α β γ : Type} {w mid after : World H} {v : Value} {e : EnvironmentId}
  {N : Name → Prop}

namespace CallStack
variable {s inner : CallStack}

structure Sound (s : CallStack) : Prop where
  queued : s.queued = none
  recorded : s.recording → s.frames.length = s.nesting
  inside : s.Room 0

structure LeadsTo (s inner : CallStack) : Prop where
  frames : s.frames <:+ inner.frames
  recording : inner.recording = s.recording
  limit : inner.limit = s.limit

theorem leads_enter (s : CallStack) (label : String) (location : Option Location) :
    s.LeadsTo (s.enter label location) := by
  unfold enter
  split
  · exact ⟨List.suffix_cons _ _, rfl, rfl⟩
  · exact ⟨List.suffix_refl _, rfl, rfl⟩

theorem enter_quiet (quiet : s.recording = false) (label other : String)
    (location : Option Location) : s.enter label location = s.enter other location := by
  simp only [enter, quiet, Bool.false_eq_true, if_false]

theorem frames_enter (sound : s.Sound) (recording : s.recording = true) (label : String)
    (location : Option Location) :
    (s.enter label location).frames = ⟨label, location⟩ :: s.frames := by
  simp only [enter, recording, if_true, sound.queued]
  cases location <;> rfl

theorem Sound.enter (sound : s.Sound) (free : s.atLimit = false) (label : String)
    (location : Option Location) : (s.enter label location).Sound := by
  have below := below_enter s label location
  refine ⟨?_, fun recording => ?_, below.room_iff.mpr (atLimit_iff.mp free)⟩
  · unfold CallStack.enter
    split
    · rfl
    · exact sound.queued
  · rw [(leads_enter s label location).recording] at recording
    rw [frames_enter sound recording, List.length_cons, sound.recorded recording, below.nesting]

theorem Sound.quiet (sound : s.Sound) : s.withoutRecording.Sound :=
  ⟨sound.queued, nofun, sound.inside⟩

theorem Sound.derive {v : Value} {key : KeyId} (sound : s.Sound)
    (entered : s.derive v key = .ok inner) : inner.Sound ∧ s.LeadsTo inner := by
  obtain ⟨-, free, rfl⟩ := derive_eq_ok_iff.mp entered
  have fresh := sound.enter free s!"deriving {key.label}" none
  have leads := leads_enter s s!"deriving {key.label}" none
  exact ⟨⟨fresh.queued, fresh.recorded, fresh.inside⟩, leads.frames, leads.recording, leads.limit⟩

end CallStack

namespace Failure
variable {s inner : CallStack} {f : Failure}

def Spent (f : Failure) : Prop := ∃ limit, f.cause = .depthLimit limit

structure Traces (s : CallStack) (f : Failure) : Prop where
  suffix : s.frames <:+ f.trace.frames
  bounded : s.recording → ∀ limit, s.limit = some limit → f.trace.frames.length ≤ limit
  spent : s.recording → ∀ limit, f.cause = .depthLimit limit →
    s.limit = some limit ∧ f.trace.frames.length = limit

theorem Traces.outer (traces : f.Traces inner) (leads : s.LeadsTo inner) : f.Traces s where
  suffix := leads.frames.trans traces.suffix
  bounded recording limit chosen :=
    traces.bounded (leads.recording.trans recording) limit (leads.limit.trans chosen)
  spent recording limit cause := by
    obtain ⟨chosen, full⟩ := traces.spent (leads.recording.trans recording) limit cause
    exact ⟨leads.limit.symm.trans chosen, full⟩

theorem traces_raised (sound : s.Sound) {cause : Cause}
    (other : ∀ limit, cause ≠ .depthLimit limit) :
    (withTrace (.of cause) s.backtrace).Traces s where
  suffix := List.suffix_refl _
  bounded recording limit chosen := by
    have inside := sound.inside limit chosen
    have recorded := sound.recorded recording
    change s.frames.length ≤ limit
    omega
  spent _ limit same := absurd same (other limit)

theorem traces_limit (sound : s.Sound) (full : s.atLimit = true) : s.limitFailure.Traces s := by
  obtain ⟨limit, chosen, reached⟩ : ∃ limit, s.limit = some limit ∧ limit ≤ s.nesting := by
    unfold CallStack.atLimit at full
    cases chosen : s.limit with
    | none => simp [chosen] at full
    | some limit => exact ⟨limit, rfl, by simpa [chosen] using full⟩
  have inside := sound.inside limit chosen
  have counted : s.recording → s.frames.length = limit := fun recording => by
    have recorded := sound.recorded recording
    omega
  refine ⟨List.suffix_refl _, fun recording other chosen' => ?_, fun recording other cause => ?_⟩
  · rw [chosen] at chosen'
    cases chosen'
    exact Nat.le_of_eq (counted recording)
  · simp only [CallStack.limitFailure, withTrace, of, chosen, Option.getD_some,
      Cause.depthLimit.injEq] at cause
    subst cause
    exact ⟨chosen, counted recording⟩

theorem spent_limit (s : CallStack) : s.limitFailure.Spent := ⟨_, rfl⟩

end Failure

namespace World

structure Proceeds (N : Name → Prop) (e : EnvironmentId) (still : Prop) (w after : World H) : Prop
    extends KeepsBearings e w after where
  fences : after.Fences N e
  bindings : ∀ name, (after.environment e).lookup name = (w.environment e).lookup name ∨
    N ⟨name⟩ ∧ N assignmentMark ∧ ((after.environment e).lookup name).isSome
  rests : still → w.KeepsSurroundings after

namespace Proceeds
variable {still : Prop}

theorem same (fences : w.Fences N e) : w.Proceeds N e still w :=
  ⟨.same e w, fences, fun _ => .inl rfl, fun _ => .same w⟩

theorem trans (first : w.Proceeds N e still mid) (second : mid.Proceeds N e still after) :
    w.Proceeds N e still after where
  toKeepsBearings := first.toKeepsBearings.trans second.toKeepsBearings
  fences := second.fences
  bindings name := by
    rcases second.bindings name with same | new
    · rw [same]
      exact first.bindings name
    · exact .inr new
  rests demanded := (first.rests demanded).trans (second.rests demanded)

theorem weaken {less : Prop} (proceeds : w.Proceeds N e still after) (demands : less → still) :
    w.Proceeds N e less after :=
  ⟨proceeds.toKeepsBearings, proceeds.fences, proceeds.bindings, fun demanded =>
    proceeds.rests (demands demanded)⟩

theorem of_same (fences : w.Fences N e) (moves : w.KeepsBearings e after)
    (rules : (after.environment e).rules = (w.environment e).rules)
    (lookup : ∀ name, (after.environment e).lookup name = (w.environment e).lookup name)
    (rests : still → w.KeepsSurroundings after) : w.Proceeds N e still after where
  toKeepsBearings := moves
  fences :=
    { standard := rules.trans fences.standard
      made := Nat.lt_of_lt_of_le fences.made moves.environments
      bound := fun name v found => by
        rw [lookup] at found
        exact (fences.bound name v found).moved moves }
  bindings name := .inl (lookup name)
  rests := rests

theorem learnt (fences : w.Fences N e) (learns : w.LearnsAnswers True after) :
    w.Proceeds N e still after :=
  .of_same fences (learns.keepsBearings e) (by rw [learns.environment])
    (fun name => by rw [learns.environment])
    fun _ => ⟨learns.environments, learns.buffers, learns.console⟩

theorem created (fences : w.Fences N e) (node : Node H) :
    w.Proceeds N e still (w.create node).2 :=
  .of_same fences (w.keepsBearings_create node) rfl (fun _ => rfl) fun _ => ⟨rfl, rfl, rfl⟩

theorem idled (fences : w.Fences N e) (idles : w.KeepsControl e after) :
    w.Proceeds N e False after :=
  .of_same fences idles.toKeepsBearings idles.rules idles.lookup nofun

theorem defined {name : String} (fences : w.Fences N e) (within : w.Within N v) (named : N ⟨name⟩)
    (marked : N assignmentMark) : w.Proceeds N e False (w.change e (·.define name v)) := by
  have moves := keepsBearings_change w (·.define name v) fences.made
  have here : (w.change e (·.define name v)).environment e = (w.environment e).define name v := by
    rw [environment_change w e e _ fences.made, if_pos rfl]
  refine ⟨moves, ⟨?_, Nat.lt_of_lt_of_le fences.made moves.environments, fun other u found => ?_⟩,
    fun other => ?_, nofun⟩
  · rw [Standard, here]
    exact fences.standard
  · rw [here, lookup_define] at found
    split at found
    · cases found
      exact within.moved moves
    · exact (fences.bound other u found).moved moves
  · rw [here, lookup_define]
    split
    · rename_i same
      subst same
      exact .inr ⟨named, marked, rfl⟩
    · exact .inl rfl

end Proceeds

theorem Fences.learnt (fences : w.Fences N e) (learns : w.LearnsAnswers True after) :
    after.Fences N e :=
  (Proceeds.learnt fences learns : w.Proceeds N e True after).fences

end World

/-- What runs are observed in: the environment, the limit, the names at hand and the moments
    seen. -/
structure Setting (H : Host) where
  behaviour : Behaviour H
  environment : EnvironmentId
  limit : Option Nat
  named : Name → Prop
  seen : Moment H → Prop

structure Context.Placed (g : Setting H) (ctx : Context) : Prop where
  environment : ctx.environment = g.environment
  limit : ctx.stack.limit = g.limit
  sound : ctx.stack.Sound

structure Context.Ready (g : Setting H) (ctx : Context) : Prop extends Placed g ctx where
  idle : ctx.stack.active = []

/-- The first mark among the items stands between those on the left and those on the right. -/
structure World.Splits (w : World H) (items left right : List Value) : Prop where
  marked : ∃ mark, items = left ++ mark :: right ∧
    (w.node mark).form? Key.name = some assignmentMark
  first : ∀ x ∈ left, (w.node x).form? Key.name ≠ some assignmentMark

/-- The request of a built-in program at which an assignment is found to have no name for a target,
    or a macro to have a body that is no syntax. The failure is what the request comes to. -/
inductive Moment.Refuses (B : Behaviour H) (f : Failure) : Moment H → Prop where
  | target {l : ListForm} {ctx : Context} {w after : World H} {left right : List Value}
      (splits : w.Splits l.items left right) (target : left ≠ []) (value : right ≠ [])
      (unnamed : ∀ x, left = [x] → (w.node x).form? Key.name = none)
      (cause : f.cause = .missingTrait Key.assign.label)
      (ends : (Request.evaluate (.list l) ctx).Ends B w (.error f) after) :
      Refuses B f ⟨.evaluate (.list l) ctx, w⟩
  | body {m : Macro} {argument : Value} {ctx : Context} {w after : World H} {t : Term}
      (spells : w.Spells False m.body t) (known : t.known) (other : t.isSyntax = false)
      (cause : f.cause = .missingTrait Key.expand.label)
      (ends : (Request.call (.application m) argument ctx).Ends B w (.error f) after) :
      Refuses B f ⟨.call (.application m) argument ctx, w⟩

inductive Failure.Earned (B : Behaviour H) (seen : Moment H → Prop) (f : Failure) : Prop where
  | spent (spent : f.Spent)
  | unbound {name : String} (cause : f.cause = .unbound name)
  | custom {message : String} (cause : f.cause = .custom message)
  | refused {n : Moment H} (put : seen n) (refuses : n.Refuses B f)

/-- How programs end with the stack. A failure that is not due to the limit is one of a sort. -/
structure Outcome (g : Setting H) (still : Prop) (s : CallStack) (fair : Failure → Prop)
    (w : World H) (good : α → World H → Prop) (r : Except Failure α) (after : World H) : Prop where
  proceeds : w.Proceeds g.named g.environment still after
  fails : ∀ f, r = .error f → f.Traces s ∧ (f.Spent ∨ fair f)
  gives : ∀ a, r = .ok a → good a after

structure CallStack.Permits (s : CallStack) (w : World H) (v : Value) (t : Term) (key : KeyId) :
    Prop where
  standard : key.Regular ∨ key = Key.text.id
  idle : ⟨v, key.index⟩ ∉ s.active
  calm : StandardRule.forKey key ≠ [] → s.Calm
  deeper : key = Key.text.id → ∀ p ∈ s.active, ∃ u, w.Bears True p.value u ∧ t.depth < u.depth

structure Resolved (w : World H) (v : Value) (key : KeyId) (s : CallStack)
    (r : Except Failure (Option (Payload H))) (after : World H) : Prop where
  learns : w.LearnsAnswers True after
  fails : ∀ f, r = .error f → f.Traces s ∧ f.Spent
  said : key.Regular → ∀ a, r = .ok a → a = (w.node v).standard? key
  typed : ∀ p, r = .ok (some p) → standardKinds[key.index]? = some p.kind

def Access.Binds (g : Setting H) : Access H → Prop
  | .define e name _ => e = g.environment ∧ g.named ⟨name⟩ ∧ g.named assignmentMark
  | _ => True

inductive Request.Due (g : Setting H) : Request H → World H → Prop where
  | resolve {v : Value} {key : KeyId} {ctx : Context} {w : World H} {t : Term}
      (fences : w.Fences g.named g.environment) (placed : ctx.Placed g) (bears : w.Bears True v t)
      (permits : ctx.stack.Permits w v t key) : Due g (.resolve v key ctx) w
  | call {f : Function H.Code} {argument : Value} {ctx : Context} {w : World H}
      (fences : w.Fences g.named g.environment) (ready : ctx.Ready g)
      (about : f.Over (w.Within g.named)) (held : w.Within g.named argument) :
      Due g (.call f argument ctx) w
  | evaluate {f : Evaluator H.Code} {ctx : Context} {w : World H}
      (fences : w.Fences g.named g.environment) (ready : ctx.Ready g)
      (about : f.Over (w.Within g.named)) : Due g (.evaluate f ctx) w
  | expand {f : Expander H.Code} {parameter replacement : Value} {ctx : Context} {w : World H}
      (fences : w.Fences g.named g.environment) (ready : ctx.Ready g)
      (about : f.Over (w.Within g.named)) (named : ∀ n l, f = .name n l → g.named n)
      (parameter_held : w.Within g.named parameter) (held : w.Within g.named replacement) :
      Due g (.expand f parameter replacement ctx) w
  | assign {n : Name} {value : Value} {ctx : Context} {w : World H}
      (fences : w.Fences g.named g.environment) (ready : ctx.Ready g) (named : g.named n)
      (marked : g.named assignmentMark) (held : w.Within g.named value) :
      Due g (.assign (.name n) value ctx) w
  | access {a : Access H} {w : World H} (binds : a.Binds g) : Due g (.access a) w

def Expander.EndsHolding {κ : Type} (n : Node H) : Expander κ → Prop
  | .list _ _ => ∃ items l, n = .single Key.list ⟨items⟩ l
  | .block _ _ | .name _ _ | .quoted _ _ | .own _ => True

namespace Setting
variable (g : Setting H)

def Fair (f : Failure) : Prop := f.Earned g.behaviour g.seen

def contract : Contract H where
  pre := Request.Due g
  post
    | .resolve v key ctx, w, r, after => Resolved w v key ctx.stack r after
    | .call _ _ ctx, w, r, after | .evaluate _ ctx, w, r, after =>
      Outcome g False ctx.stack g.Fair w (fun v after => after.Within g.named v) r after
    | .expand f _ _ ctx, w, r, after =>
      Outcome g True ctx.stack g.Fair w
        (fun v after => after.Within g.named v ∧ f.EndsHolding (after.node v)) r after
    | .assign _ _ ctx, w, r, after =>
      Outcome g False ctx.stack g.Fair w (fun _ _ => True) r after
    | .access a, w, answer, after => (answer, after) = a.perform w

end Setting

def Program.EndsFairly (g : Setting H) (still : Prop) (s : CallStack) (fair : Failure → Prop)
    (m : Program H α) (w : World H) (good : α → World H → Prop) : Prop :=
  m.Satisfies g.contract w (Outcome g still s fair w good)

variable {g : Setting H} {still : Prop} {s inner : CallStack} {fair : Failure → Prop}

namespace Outcome
variable {good : α → World H → Prop} {r : Except Failure α}

theorem later (earlier : w.Proceeds g.named g.environment still mid)
    (outcome : Outcome g still s fair mid good r after) : Outcome g still s fair w good r after :=
  ⟨earlier.trans outcome.proceeds, outcome.fails, outcome.gives⟩

theorem failed {f : Failure} (outcome : Outcome g still s fair w good (.error f) after)
    {good : β → World H → Prop} : Outcome g still s fair w good (.error f) after :=
  ⟨outcome.proceeds, fun f' same => outcome.fails f' (by cases same; rfl), nofun⟩

theorem outer (leads : s.LeadsTo inner) (outcome : Outcome g still inner fair w good r after) :
    Outcome g still s fair w good r after :=
  ⟨outcome.proceeds, fun f same => (outcome.fails f same).imp_left (·.outer leads), outcome.gives⟩

theorem weaken {less : Prop} {unfair : Failure → Prop} {better : α → World H → Prop}
    (outcome : Outcome g still s fair w good r after) (demands : less → still)
    (fairer : ∀ f, fair f → unfair f)
    (weaker : ∀ a after, w.Proceeds g.named g.environment less after → good a after →
      better a after) : Outcome g less s unfair w better r after := by
  have proceeds := outcome.proceeds.weaken demands
  exact ⟨proceeds, fun f same => (outcome.fails f same).imp_right (·.imp_right (fairer f)),
    fun a same => weaker a after proceeds (outcome.gives a same)⟩

end Outcome

namespace Program
variable {m : Program H α} {good : α → World H → Prop}

theorem EndsFairly.done {a : α} (fences : w.Fences g.named g.environment) (holds : good a w) :
    (pure a : Program H α).EndsFairly g still s fair w good :=
  Satisfies.done ⟨.same fences, nofun, fun b same => by cases same; exact holds⟩

theorem EndsFairly.failed {f : Failure} (fences : w.Fences g.named g.environment)
    (traces : f.Traces s) (excused : f.Spent ∨ fair f) :
    (throw f : Program H α).EndsFairly g still s fair w good :=
  Satisfies.failed ⟨.same fences, fun f' same => by cases same; exact ⟨traces, excused⟩, nofun⟩

theorem EndsFairly.fail {cause : Cause} (fences : w.Fences g.named g.environment) (sound : s.Sound)
    (other : ∀ limit, cause ≠ .depthLimit limit)
    (excused : fair (.withTrace (.of cause) s.backtrace)) :
    (fail cause s : Program H α).EndsFairly g still s fair w good :=
  .failed fences (Failure.traces_raised sound other) (.inr excused)

theorem EndsFairly.weaken {less : Prop} {unfair : Failure → Prop} {better : α → World H → Prop}
    (fares : m.EndsFairly g still s fair w good) (demands : less → still)
    (fairer : ∀ f, fair f → unfair f)
    (weaker : ∀ a after, w.Proceeds g.named g.environment less after → good a after →
      better a after) : m.EndsFairly g less s unfair w better :=
  Satisfies.weaken fares fun _ _ outcome => outcome.weaken demands fairer weaker

theorem EndsFairly.imp {better : α → World H → Prop} (fares : m.EndsFairly g still s fair w good)
    (weaker : ∀ a after, good a after → better a after) : m.EndsFairly g still s fair w better :=
  fares.weaken id (fun _ => id) fun a after _ => weaker a after

theorem EndsFairly.bind {f : α → Program H β} {good' : β → World H → Prop}
    (first : m.EndsFairly g still s fair w good)
    (rest : ∀ a mid, w.Proceeds g.named g.environment still mid → good a mid →
      (f a).EndsFairly g still s fair mid good') : (m >>= f).EndsFairly g still s fair w good' := by
  refine Satisfies.bind first (fun a mid outcome => ?_) fun f' mid outcome => outcome.failed
  exact Satisfies.weaken (rest a mid outcome.proceeds (outcome.gives a rfl)) fun _ _ later =>
    later.later outcome.proceeds

theorem EndsFairly.outer (leads : s.LeadsTo inner)
    (fares : m.EndsFairly g still inner fair w good) :
    m.EndsFairly g still s fair w good :=
  Satisfies.weaken fares fun _ _ outcome => outcome.outer leads

theorem EndsFairly.lift {m : Act H α} (heeds : m.Satisfies g.contract w fun a after =>
    w.Proceeds g.named g.environment still after ∧ good a after) :
    m.lift.EndsFairly g still s fair w good := by
  refine Satisfies.weaken (Satisfies.lift heeds) fun r after ⟨a, same, proceeds, holds⟩ => ?_
  subst same
  exact ⟨proceeds, nofun, fun b same => by cases same; exact holds⟩

theorem satisfies_access (a : Access H) (binds : a.Binds g) :
    (access a).Satisfies g.contract w fun r after =>
      r = .ok (a.perform w).1 ∧ after = (a.perform w).2 := by
  have performed : (Act.access a).Satisfies g.contract w fun answer after =>
      answer = (a.perform w).1 ∧ after = (a.perform w).2 :=
    Act.Satisfies.request (.access binds) fun answer after same => Prod.mk.inj same
  refine Satisfies.weaken (Satisfies.lift performed) fun r after ⟨answer, same, here, there⟩ => ?_
  rw [same, here]
  exact ⟨rfl, there⟩

theorem EndsFairly.access (a : Access H) (binds : a.Binds g) {good : a.Answer → World H → Prop}
    (proceeds : w.Proceeds g.named g.environment still (a.perform w).2)
    (holds : good (a.perform w).1 (a.perform w).2) :
    (access a).EndsFairly g still s fair w good := by
  refine Satisfies.weaken (satisfies_access a binds) fun r after ⟨same, reached⟩ => ?_
  subst same reached
  exact ⟨proceeds, nofun, fun b same => by cases same; exact holds⟩

theorem satisfies_location (v : Value) :
    v.location.Satisfies g.contract w fun r after =>
      r = .ok (w.node v).location ∧ after = w := by
  refine Satisfies.bind (satisfies_access (.inspect v) trivial) (fun n after found => ?_)
    fun f after found => nomatch found.1
  obtain ⟨same, rfl⟩ := found
  cases same
  exact Satisfies.done ⟨rfl, rfl⟩

theorem EndsFairly.location (v : Value) (fences : w.Fences g.named g.environment) :
    v.location.EndsFairly g still s fair w fun l after => l = (w.node v).location ∧ after = w := by
  refine Satisfies.weaken (satisfies_location v) fun r after ⟨same, reached⟩ => ?_
  subst same reached
  exact ⟨.same fences, nofun, fun l same => by cases same; exact ⟨rfl, rfl⟩⟩

theorem EndsFairly.mapM {f : γ → Program H β} {p : World H → β → Prop}
    (keeps : ∀ {w after : World H} {b : β}, w.KeepsBearings g.environment after → p w b → p after b)
    {items : List γ} (fences : w.Fences g.named g.environment)
    (each : ∀ x ∈ items, ∀ mid, w.Proceeds g.named g.environment still mid →
      (f x).EndsFairly g still s fair mid fun b after => p after b) :
    (items.mapM f).EndsFairly g still s fair w fun bs after => ∀ b ∈ bs, p after b := by
  induction items generalizing w with
  | nil => exact .done fences (List.forall_mem_nil _)
  | cons x rest ih =>
    rw [List.mapM_cons]
    refine (each x (List.mem_cons_self ..) w (.same fences)).bind fun b mid first here => ?_
    have others := ih first.fences fun y member later proceeds =>
      each y (List.mem_cons_of_mem _ member) later (first.trans proceeds)
    refine others.bind fun bs after second there => .done second.fences ?_
    exact List.forall_mem_cons.mpr ⟨keeps second.toKeepsBearings here, there⟩

end Program
end TraitDispatch
