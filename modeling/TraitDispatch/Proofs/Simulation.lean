import TraitDispatch.Proofs.DirectEvaluation
import TraitDispatch.Proofs.Reduction

/- Programs of requests compared with computations over the store. A world models a store, and
   whenever the computation has an outcome, the program ends with the same, in a world that models
   what has become of the store. Asking for answers is never seen, since it leaves the store as it
   is. -/
namespace TraitDispatch
variable {H : Host} {α β γ δ : Type} {B : Behaviour H} {w : World H}

structure World.Binds (e : EnvironmentId) (w : World H) (scope : String → Option Term) : Prop where
  standard : w.Standard e
  made : e.index < w.environments.size
  scope : ∀ name, Option.Rel (w.Represents True) ((w.environment e).lookup name) (scope name)

def World.Opened (w : World H) : Output → Prop
  | .capture buffer => buffer < w.buffers.size
  | .console | .discard => True

def World.Written (w : World H) : Output → String → Prop
  | .capture buffer, text => w.captured (.capture buffer) = text
  | .console, text => w.console = text
  | .discard, _ => True

/-- The environment holds the bindings of the store, and its output the lines. Where none was
    chosen the output is the console. -/
structure World.Models (e : EnvironmentId) (out : Output) (w : World H) (s : Store) : Prop
    extends World.Binds e w s.scope where
  opened : w.Opened out
  output : (w.environment e).output.getD .console = out
  captured : w.Written out s.output

/-- A later world that differs, values aside, in the one environment and in what was written. -/
structure World.ChangesOnly (e : EnvironmentId) (w after : World H) : Prop
    extends World.KeepsTerms True w after where
  elsewhere : ∀ other, other ≠ e → after.environment other = w.environment other
  environments : w.environments.size ≤ after.environments.size
  buffers : w.buffers.size ≤ after.buffers.size

structure World.Reaches (e : EnvironmentId) (silent : Prop) (w : World H) (r : Except Failure α)
    (after : World H) : Prop extends World.ChangesOnly e w after where
  untraced : silent → ∀ failure, r = .error failure → failure.trace = .empty

/-- Results correspond, and failures have the same cause. -/
def Agrees (rel : α → β → Prop) : Except Failure α → Except Cause β → Prop
  | .ok a, .ok b => rel a b
  | .error failure, .error cause => failure.cause = cause
  | _, _ => False

/-- Whenever the computation has an outcome, the program ends with it. -/
def Program.Realizes (B : Behaviour H) (e : EnvironmentId) (out : Output) (silent : Prop)
    (m : Program H α) (w : World H) (d : Direct β) (s : Store) (rel : World H → α → β → Prop) :
    Prop :=
  ∀ outcome s', d s = some (outcome, s') → ∃ r after, m.Ends B w r after ∧
    w.Reaches e silent r after ∧ after.Models e out s' ∧ Agrees (rel after) r outcome

/-- A place in a run where nothing is being derived. -/
structure Context.At (e : EnvironmentId) (ctx : Context) : Prop where
  environment : ctx.environment = e
  opened : ctx.stack.Open

theorem Context.Inside.at {e : EnvironmentId} {ctx inner : Context} (inside : ctx.Inside inner)
    (placed : ctx.At e) : inner.At e :=
  ⟨inside.environment.trans placed.environment, inside.opened⟩

section Following
variable {e : EnvironmentId} {out : Output} {silent : Prop} {s : Store}

theorem rel_imp {R R' : α → β → Prop} {x : Option α} {y : Option β}
    (weaker : ∀ a b, R a b → R' a b) (related : Option.Rel R x y) : Option.Rel R' x y := by
  cases related with
  | none => exact .none
  | some holds => exact .some (weaker _ _ holds)

namespace World

theorem ChangesOnly.same (w : World H) : w.ChangesOnly e w :=
  ⟨.same w, fun _ _ => rfl, Nat.le_refl _, Nat.le_refl _⟩

theorem ChangesOnly.trans {mid after : World H} (first : w.ChangesOnly e mid)
    (second : mid.ChangesOnly e after) : w.ChangesOnly e after where
  toKeepsTerms := first.toKeepsTerms.trans second.toKeepsTerms
  elsewhere other apart := (second.elsewhere other apart).trans (first.elsewhere other apart)
  environments := Nat.le_trans first.environments second.environments
  buffers := Nat.le_trans first.buffers second.buffers

theorem AddsValues.changesOnly {after : World H} (grown : World.AddsValues True w after) :
    w.ChangesOnly e after where
  toKeepsTerms := grown.toKeepsTerms
  elsewhere other _ := grown.environment other
  environments := Nat.le_of_eq (congrArg Array.size grown.environments.symm)
  buffers := Nat.le_of_eq (congrArg Array.size grown.buffers.symm)

theorem ChangesOnly.change (made : e.index < w.environments.size)
    (f : Environment H → Environment H) : w.ChangesOnly e (w.change e f) where
  toKeepsTerms := .of_cells_eq rfl
  elsewhere other apart := by rw [World.environment_change w e other f made, if_neg apart]
  environments := by simp [World.change]
  buffers := Nat.le_refl _

theorem ChangesOnly.ends {after : World H} (changesOnly : w.ChangesOnly e after) (a : α) :
    w.Reaches e silent (.ok a : Except Failure α) after :=
  ⟨changesOnly, fun _ _ failed => nomatch failed⟩

theorem Reaches.after {mid after : World H} {r : Except Failure α} (first : w.ChangesOnly e mid)
    (second : mid.Reaches e silent r after) : w.Reaches e silent r after :=
  ⟨first.trans second.toChangesOnly, second.untraced⟩

theorem Reaches.failing {after : World H} {failure : Failure}
    (reaches : w.Reaches e silent (.error failure : Except Failure α) after) :
    w.Reaches e silent (.error failure : Except Failure β) after :=
  ⟨reaches.toChangesOnly, fun quiet _ same => by
    cases same
    exact reaches.untraced quiet failure rfl⟩

theorem Binds.grown {after : World H} {scope : String → Option Term}
    (binds : w.Binds e scope) (grown : World.AddsValues True w after) : after.Binds e scope where
  standard := grown.standard binds.standard
  made := by
    rw [grown.environments]
    exact binds.made
  scope name := by
    rw [grown.environment]
    exact rel_imp grown.represents (binds.scope name)

theorem Opened.grown {after : World H} (opened : w.Opened out)
    (more : w.buffers.size ≤ after.buffers.size) : after.Opened out := by
  cases out with
  | capture buffer => exact Nat.lt_of_lt_of_le opened more
  | console | discard => trivial

theorem Written.congr {after : World H} {text : String} (written : w.Written out text)
    (buffers : after.buffers = w.buffers) (console : after.console = w.console) :
    after.Written out text := by
  cases out with
  | capture buffer => rwa [Written, captured, buffers]
  | console => rwa [Written, console]
  | discard => trivial

theorem Models.grown {after : World H} (models : w.Models e out s)
    (grown : World.AddsValues True w after) : after.Models e out s where
  toBinds := models.toBinds.grown grown
  opened := models.opened.grown (Nat.le_of_eq (congrArg Array.size grown.buffers.symm))
  output := by
    rw [grown.environment]
    exact models.output
  captured := models.captured.congr grown.buffers grown.console

end World

namespace Program
variable {rel : World H → α → β → Prop} {next : World H → γ → δ → Prop}

theorem realizes_done {a : α} {b : β} (models : w.Models e out s) (related : rel w a b) :
    (pure a : Program H α).Realizes B e out silent w (pure b) s rel := by
  intro outcome s' ran
  cases ran
  exact ⟨.ok a, w, .done a w, (World.ChangesOnly.same w).ends a, models, related⟩

theorem realizes_fail {cause : Cause} {ctx : Context} (models : w.Models e out s) :
    (fail cause ctx.stack : Program H α).Realizes B e out ctx.Silent w (Direct.fail cause) s
      rel := by
  intro outcome s' ran
  cases ran
  refine ⟨_, w, .failed _ w, ⟨.same w, fun silent failure same => ?_⟩, models, rfl⟩
  cases same
  exact congrArg Backtrace.mk silent.blank

theorem Realizes.quieter {quiet : Prop} {m : Program H α} {d : Direct β}
    (realizes : m.Realizes B e out silent w d s rel) (silences : quiet → silent) :
    m.Realizes B e out quiet w d s rel := by
  intro outcome s' ran
  obtain ⟨r, after, ends, reaches, result⟩ := realizes outcome s' ran
  exact ⟨r, after, ends, ⟨reaches.toChangesOnly, fun quiet => reaches.untraced (silences quiet)⟩,
    result⟩

theorem Realizes.bind {m : Program H α} {d : Direct β} {f : α → Program H γ} {g : β → Direct δ}
    (first : m.Realizes B e out silent w d s rel)
    (rest : ∀ a b w' s', World.KeepsTerms True w w' → w'.Models e out s' → rel w' a b →
      (f a).Realizes B e out silent w' (g b) s' next) :
    (m >>= f).Realizes B e out silent w (d >>= g) s next := by
  intro outcome s' ran
  rcases begun : d s with _ | ⟨middle, s₁⟩
  · rw [Direct.bind_none begun] at ran
    cases ran
  · obtain ⟨r, mid, ends, reaches, models, agrees⟩ := first middle s₁ begun
    cases middle with
    | error cause =>
      rw [Direct.bind_error begun] at ran
      cases ran
      cases r with
      | ok a => exact absurd agrees id
      | error failure =>
        exact ⟨.error failure, mid, .bind_failed ends, reaches.failing, models, agrees⟩
    | ok b =>
      rw [Direct.bind_ok begun] at ran
      cases r with
      | error failure => exact absurd agrees id
      | ok a =>
        obtain ⟨r', after, ends', reaches', result⟩ :=
          rest a b mid s₁ reaches.toKeepsTerms models agrees outcome s' ran
        exact ⟨r', after, .bind ends ends', reaches'.after reaches.toChangesOnly, result⟩

theorem Realizes.bind_fail {m : Program H α} {f : α → Program H γ} {cause : Cause}
    (failed : m.Realizes B e out silent w (Direct.fail cause) s rel) :
    (m >>= f).Realizes B e out silent w (Direct.fail cause) s next := by
  intro outcome s' ran
  cases ran
  obtain ⟨r, after, ends, reaches, models, agrees⟩ := failed _ _ rfl
  cases r with
  | ok a => exact absurd agrees id
  | error failure =>
    exact ⟨.error failure, after, .bind_failed ends, reaches.failing, models, agrees⟩

theorem ReducesTo.realizes {m rest : Program H α} {w' : World H} {d : Direct β}
    (comes : m.ReducesTo B True w rest w') (realizes : rest.Realizes B e out silent w' d s rel) :
    m.Realizes B e out silent w d s rel := by
  intro outcome s' ran
  obtain ⟨r, after, ends, reaches, result⟩ := realizes outcome s' ran
  exact ⟨r, after, comes.ends ends, reaches.after comes.grown.changesOnly, result⟩

theorem ReducesTo.realizes_inside {m rest : Program H α} {w' : World H} {d : Direct β}
    {ctx inner : Context} (comes : m.ReducesTo B True w rest w') (inside : ctx.Inside inner)
    (realizes : rest.Realizes B e out inner.Silent w' d s rel) :
    m.Realizes B e out ctx.Silent w d s rel :=
  comes.realizes (realizes.quieter inside.silent)

theorem Succeeds.realizes {m : Program H α} {p : α → World H → Prop} {f : α → Program H γ}
    {d : Direct δ} (quiet : m.Succeeds B (World.AddsValues True) w p)
    (rest : ∀ a w', World.AddsValues True w w' → p a w' →
      (f a).Realizes B e out silent w' d s next) :
    (m >>= f).Realizes B e out silent w d s next := by
  obtain ⟨a, w', holds, comes⟩ := quiet.reducesTo f
  exact comes.realizes (rest a w' comes.grown holds)

theorem Succeeds.realizes_pure {m : Program H α} {p : α → World H → Prop} {b : β}
    (models : w.Models e out s) (quiet : m.Succeeds B (World.AddsValues True) w p)
    (related : ∀ a w', World.AddsValues True w w' → p a w' → rel w' a b) :
    m.Realizes B e out silent w (pure b) s rel := by
  intro outcome s' ran
  cases ran
  obtain ⟨a, after, ends, grown, holds⟩ := quiet
  exact ⟨.ok a, after, ends, grown.changesOnly.ends a, models.grown grown,
    related a after grown holds⟩

end Program

variable {ctx : Context}

theorem Context.At.standard (placed : ctx.At e) (models : w.Models e out s) :
    w.Standard ctx.environment := by
  rw [placed.environment]
  exact models.standard

theorem Context.At.ready {v : Value} {t : Term} (placed : ctx.At e)
    (holds : w.Represents True v t) (models : w.Models e out s) : v.Ready w (w.node v) ctx :=
  holds.ready (placed.standard models) placed.opened

theorem realizes_evaluate {f : Evaluator H.Code} {d : Direct β} {rel : World H → Value → β → Prop}
    (applied : (f.apply B ctx).Realizes B e out silent w d s rel) :
    (Program.evaluate f ctx).Realizes B e out silent w d s rel := by
  intro outcome s' ran
  obtain ⟨r, after, ends, result⟩ := applied outcome s' ran
  exact ⟨r, after, .evaluate ends, result⟩

theorem realizes_call {f : Function H.Code} {argument : Value} {d : Direct β}
    {rel : World H → Value → β → Prop}
    (applied : (f.apply B argument ctx).Realizes B e out silent w d s rel) :
    (Program.call f argument ctx).Realizes B e out silent w d s rel := by
  intro outcome s' ran
  obtain ⟨r, after, ends, result⟩ := applied outcome s' ran
  exact ⟨r, after, .call ends, result⟩

theorem realizes_assign {f : Assigner H.Code} {value : Value} {d : Direct β}
    {rel : World H → Unit → β → Prop}
    (applied : (f.apply B value ctx).Realizes B e out silent w d s rel) :
    (Program.assign f value ctx).Realizes B e out silent w d s rel := by
  intro outcome s' ran
  obtain ⟨r, after, ends, result⟩ := applied outcome s' ran
  exact ⟨r, after, .assign ends, result⟩

theorem binds_define {v : Value} {t : Term} {scope : String → Option Term}
    (binds : w.Binds e scope) (holds : w.Represents True v t) (name : String) :
    (w.change e (·.define name v)).Binds e
      fun other => if other = name then some t else scope other := by
  have kept := (World.ChangesOnly.change binds.made (·.define name v)).toKeepsTerms
  have here : (w.change e (·.define name v)).environment e = (w.environment e).define name v := by
    rw [World.environment_change w e e _ binds.made, if_pos rfl]
  refine ⟨?_, ?_, fun other => ?_⟩
  · rw [World.Standard, here]
    exact binds.standard
  · simpa [World.change] using binds.made
  · rw [here, lookup_define]
    split
    · exact .some (kept.represents v t holds)
    · exact rel_imp kept.represents (binds.scope other)

theorem models_define {v : Value} {t : Term} (models : w.Models e out s)
    (holds : w.Represents True v t) (name : String) :
    (w.change e (·.define name v)).Models e out (s.define name t) := by
  have output := models.output
  refine ⟨binds_define models.toBinds holds name, models.opened.grown (Nat.le_refl _), ?_,
    models.captured.congr rfl rfl⟩
  rw [World.environment_change w e e _ models.made, if_pos rfl]
  exact output

theorem confined_print (w : World H) (line : String) (out : Output) :
    w.ChangesOnly e (w.print line out) := by
  cases out with
  | capture buffer =>
    exact ⟨.of_cells_eq rfl, fun _ _ => rfl, Nat.le_refl _, by simp [World.print]⟩
  | console => exact ⟨.of_cells_eq rfl, fun _ _ => rfl, Nat.le_refl _, Nat.le_refl _⟩
  | discard => exact .same w

theorem written_print {text : String} (opened : w.Opened out) (written : w.Written out text)
    (line : String) : (w.print line out).Written out (text ++ line ++ "\n") := by
  cases out with
  | capture buffer =>
    obtain ⟨before, found⟩ : ∃ before, w.buffers[buffer]? = some before :=
      ⟨_, Array.getElem?_eq_getElem opened⟩
    simp only [World.Written, World.captured, Array.getD_eq_getD_getElem?, found,
      Option.getD_some] at written
    simp [World.Written, World.captured, World.print, Array.getElem?_modify, found, written]
  | console =>
    simp only [World.Written] at written
    simp [World.Written, World.print, written]
  | discard => trivial

theorem models_print (models : w.Models e out s) (line : String) :
    (w.print line out).Models e out (s.print line) := by
  have changesOnly : w.ChangesOnly e (w.print line out) := confined_print w line out
  have same : (w.print line out).environments = w.environments := by cases out <;> rfl
  have here : (w.print line out).environment e = w.environment e := by
    simp only [World.environment, same]
  refine ⟨⟨?_, ?_, fun name => ?_⟩, models.opened.grown changesOnly.buffers, ?_,
    written_print models.opened models.captured line⟩
  · rw [World.Standard, here]
    exact models.standard
  · rw [same]
    exact models.made
  · rw [here]
    exact rel_imp changesOnly.represents (models.scope name)
  · rw [here]
    exact models.output

theorem binds_output {scope : String → Option Term} (binds : w.Binds e scope) (out : Output) :
    (w.change e ({ · with output := some out })).Binds e scope := by
  have here := w.environment_change e e ({ · with output := some out }) binds.made
  rw [if_pos rfl] at here
  have kept := (World.ChangesOnly.change binds.made ({ · with output := some out })).toKeepsTerms
  refine ⟨?_, ?_, fun name => ?_⟩
  · exact (congrArg Environment.rules here).trans binds.standard
  · simpa [World.change] using binds.made
  · have same := congrArg (Environment.lookup · name) here
    rw [same]
    exact rel_imp kept.represents (binds.scope name)

theorem models_output (models : w.Models e out s) :
    (w.change e ({ · with output := some out })).Models e out s := by
  refine ⟨binds_output models.toBinds out, models.opened.grown (Nat.le_refl _), ?_,
    models.captured.congr rfl rfl⟩
  rw [World.environment_change w e e _ models.made, if_pos rfl]
  rfl

theorem assign_realizes {v : Value} {t : Term} (models : w.Models e out s) (placed : ctx.At e)
    (holds : w.Represents True v t) (n : Name) :
    (n.assign v ctx).Realizes B e out silent w (Direct.define n.name t) s fun _ _ _ => True := by
  intro outcome s' ran
  cases ran
  rw [Name.assign, placed.environment]
  exact ⟨.ok (), _, .access _ w, (World.ChangesOnly.change models.made _).ends (),
    models_define models holds n.name, trivial⟩

theorem printLine_realizes (models : w.Models e out s) (placed : ctx.At e) (line : String) :
    (printLine line ctx).Realizes B e out silent w (Direct.print line) s fun _ _ _ => True := by
  refine (Program.succeeds_environment _).realizes fun found w' grown same => ?_
  have models' := models.grown grown
  have output : found.output.getD .console = out := by
    rw [same, placed.environment]
    exact models.output
  intro outcome s' ran
  cases ran
  cases chosen : found.output with
  | some other =>
    rw [chosen] at output
    obtain rfl : other = out := output
    exact ⟨.ok (), _, .access _ w', (confined_print w' line other).ends (),
      models_print models' line, trivial⟩
  | none =>
    rw [chosen] at output
    obtain rfl : Output.console = out := output
    rw [placed.environment]
    have set := World.ChangesOnly.change models'.made ({ · with output := some Output.console })
    exact ⟨.ok (), _, .bind (.access _ w') (.access _ _),
      (set.trans (confined_print _ line .console)).ends (),
      models_print (models_output models') line, trivial⟩

theorem empty_realizes (models : w.Models e out s) :
    (Program.createEmpty : Program H Value).Realizes B e out silent w (pure (.empty none)) s
      (World.Represents True) :=
  (Program.create_represents (.empty none) (by simp)).realizes_pure
    models fun _ _ _ created => created

end Following
end TraitDispatch
