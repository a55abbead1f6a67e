import TraitDispatch.Proofs.Oversight

/- What the trace of a failure shows. Whatever a program asks of a value with a stack that records,
   a failure of it shows the frames of the stack, below those of the entries that were in progress
   when it was raised. -/
namespace TraitDispatch
variable {H : Host} {B : Behaviour H} {w mid after : World H} {g : Setting H} {ctx : Context}
  {f : Failure}

/-- What programs ask of values that makes an entry of its own. -/
inductive Operation where
  | evaluate (v : Value)
  | call (v argument : Value)
  | expand (v parameter replacement : Value)

namespace Operation

def program : Operation → Context → Program H Value
  | .evaluate v => v.evaluate
  | .call v argument => v.call argument
  | .expand v parameter replacement => v.expand parameter replacement

def subject : Operation → Value
  | .evaluate v | .call v _ | .expand v _ _ => v

def values : Operation → List Value
  | .evaluate v => [v]
  | .call v argument => [v, argument]
  | .expand v parameter replacement => [v, parameter, replacement]

def label : Operation → String → String
  | .evaluate _, shown => s!"evaluating {shown}"
  | .call _ _, shown => s!"calling {shown}"
  | .expand _ _ _, shown => s!"expanding {shown}"

theorem enters {op : Operation} (fences : w.Fences g.named g.environment) (ready : ctx.Ready g)
    (each : ∀ v ∈ op.values, w.Within g.named v) (free : ctx.stack.atLimit = false) :
    (op.program ctx).Satisfies g.contract w fun r _ => ∃ shown, ∀ f, r = .error f →
      f.Traces (ctx.stack.enter (op.label shown) (w.node op.subject).location) := by
  have covers : Failure.Covers g fun _ => True := fun _ _ => trivial
  cases op with
  | evaluate v =>
    exact (Value.evaluate_enters fences ready covers (each v (by simp [values])) free
      fun _ _ _ => trivial).weaken fun r after ⟨shown, outcome⟩ =>
        ⟨shown, fun f same => (outcome.fails f same).1⟩
  | call v argument =>
    exact (Value.call_enters fences ready covers (each v (by simp [values])) free
      (each argument (by simp [values]))).weaken fun r after ⟨shown, outcome⟩ =>
        ⟨shown, fun f same => (outcome.fails f same).1⟩
  | expand v parameter replacement =>
    exact (Value.expand_enters fences ready covers (each v (by simp [values])) free
      (each parameter (by simp [values])) (each replacement (by simp [values]))
      fun _ _ _ => trivial).weaken fun r after ⟨shown, outcome⟩ =>
        ⟨shown, fun f same => (outcome.fails f same).1⟩

theorem endsFairly {op : Operation} (fences : w.Fences g.named g.environment) (ready : ctx.Ready g)
    (each : ∀ v ∈ op.values, w.Within g.named v) :
    (op.program ctx).Satisfies g.contract w fun r _ => ∀ f, r = .error f →
      f.Traces ctx.stack := by
  cases free : ctx.stack.atLimit with
  | false =>
    exact (enters fences ready each free).weaken fun r after ⟨shown, traces⟩ f same =>
      (traces f same).outer (CallStack.leads_enter ..)
  | true =>
    have full : (op.program ctx).EndsFairly g False ctx.stack (fun _ => True)
        w fun _ _ => True := by
      cases op <;> exact entry_full fences ready _ free
    exact Program.Satisfies.weaken full fun r after outcome f same => (outcome.fails f same).1

end Operation

section Asking
variable {k : Kind} {key : Key k} {v : Value} {t : Term}
  (declared : standardKinds[key.id.index]? = some k) (fences : w.Fences g.named g.environment)
  (placed : ctx.Placed g) (bears : w.Bears True v t) (permits : ctx.stack.Permits w v t key.id)
include declared fences placed bears permits

theorem answer?_traces : (v.answer? key ctx).Satisfies g.contract w fun r _ =>
    ∀ f, r = .error f → f.Traces ctx.stack := by
  refine Program.Satisfies.bind (resolve_satisfies fences placed bears permits)
    (fun a mid resolved => ?_) fun f mid resolved f' same => ?_
  · cases a with
    | none => exact Program.Satisfies.done nofun
    | some payload =>
      obtain ⟨j, content⟩ := payload
      obtain rfl : k = j := Option.some.inj (declared.symm.trans (resolved.typed _ rfl))
      simp only [Payload.as?_self]
      exact Program.Satisfies.done nofun
  · cases same
    exact (resolved.fails f rfl).1

theorem answer_traces : (v.answer key ctx).Satisfies g.contract w fun r _ =>
    ∀ f, r = .error f → f.Traces ctx.stack := by
  refine (answer?_traces declared fences placed bears permits).bind (fun a mid _ => ?_)
    fun f mid traces f' same => traces f' (by cases same; rfl)
  cases a with
  | some content => exact Program.Satisfies.done nofun
  | none =>
    refine Program.Satisfies.failed fun f' same => ?_
    cases same
    exact Failure.traces_raised placed.sound nofun

end Asking

/-- The frames are shown, below those of later entries. With the limit there are no more frames than
    it allows, and as many if it was met. -/
structure Failure.Shows (frames : List Frame) (limit : Option Nat) (f : Failure) : Prop where
  suffix : frames <:+ f.trace.frames
  bounded : ∀ most, limit = some most → f.trace.frames.length ≤ most
  full : ∀ most, f.cause = .depthLimit most → limit = some most ∧ f.trace.frames.length = most

theorem Failure.Traces.shows {s : CallStack} {limit : Option Nat} (traces : f.Traces s)
    (recording : s.recording = true) (limited : s.limit = limit) :
    f.Shows s.backtrace.frames limit := by
  subst limited
  exact ⟨traces.suffix, traces.bounded recording, traces.spent recording⟩

/-- The context in which a program is run to answer the request. -/
def Request.inner? : Request H → Option Context
  | .call _ _ ctx | .evaluate _ ctx | .expand _ _ _ ctx | .assign _ _ ctx => some ctx
  | .resolve _ _ _ | .access _ => none

theorem Request.Due.ready {r : Request H} (due : r.Due g w) (inner : r.inner? = some ctx) :
    w.Houses g.environment ∧ ctx.Ready g := by
  cases due with
  | call fences ready | evaluate fences ready | expand fences ready | assign fences ready =>
    cases inner
    exact ⟨fences.houses, ready⟩
  | resolve | access => cases inner

namespace Interpreter

def surveyed (B : Behaviour H) (i : Interpreter) : Setting H :=
  ⟨B, i.environment, i.config.limit, fun _ => True, fun _ => True⟩

/-- The contexts in which programs are run in the course of a call. -/
inductive Enters (B : Behaviour H) (i : Interpreter) (c : Call Value) (w : World H) (fuel : Nat) :
    Context → Prop where
  | start : Enters B i c w fuel i.context
  | request {n : Moment H} {ctx : Context} (put : n ∈ (i.answer c).run.history B fuel w)
      (inner : n.request.inner? = some ctx) : Enters B i c w fuel ctx

variable {i : Interpreter}

theorem surveyed_ends {α : Type} {m : Program H α} {p : Except Failure α → World H → Prop}
    (heeds : m.Satisfies (i.surveyed B).contract w p) {r : Except Failure α}
    (ended : m.Ends B w r after) : p r after := by
  obtain ⟨fuel, ran⟩ := ended
  exact ((Setting.kept _).sound heeds fuel fun _ _ => trivial).2 r after ran

theorem surveyed_within {v : Value} (holds : w.Holds v) : w.Within (i.surveyed B).named v := by
  obtain ⟨t, bears⟩ := holds
  exact ⟨t, bears, fun _ _ => trivial⟩

theorem surveyed_fences (housed : w.Houses i.environment) :
    w.Fences (i.surveyed B).named (i.surveyed B).environment :=
  ⟨housed.standard, housed.made, fun name v found => surveyed_within (housed.bound name v found)⟩

end Interpreter

namespace Session
variable {hand : List Value} {served : List Interpreter} {i : Interpreter} {c : Call Value}

/-- Of whatever context programs are run in in the course of a call, a failure of what is asked of
    values there shows the frames, and so it is for answers that are asked for. What makes an entry
    of its own adds the frame of that, with the place of its value. -/
theorem failures_traced (session : Session B w hand served) (member : i ∈ served)
    (held : ∀ v ∈ c.values, v ∈ hand) (fuel : Nat) :
    (∀ n ∈ (i.answer c).run.history B fuel w, n.request.inner?.isSome →
      n.world.Houses i.environment) ∧
    (∀ ctx, i.Enters B c w fuel ctx → ctx.stack.recording = true →
      ∀ (op : Operation) mid after f, mid.Houses i.environment → (∀ v ∈ op.values, mid.Holds v) →
        (op.program ctx).Ends B mid (.error f) after →
          f.Shows ctx.stack.backtrace.frames i.config.limit ∧
          (ctx.stack.atLimit = false → ∃ shown, f.Shows (⟨op.label shown,
            (mid.node op.subject).location⟩ :: ctx.stack.backtrace.frames) i.config.limit)) ∧
    ∀ {k} (key : Key k) v ctx mid, standardKinds[key.id.index]? = some k →
      ⟨.resolve v key.id ctx, mid⟩ ∈ (i.answer c).run.history B fuel w →
      ctx.stack.recording = true → ∀ f after, ((v.answer? key ctx).Ends B mid (.error f) after ∨
        (v.answer key ctx).Ends B mid (.error f) after) →
          f.Shows ctx.stack.backtrace.frames i.config.limit := by
  obtain ⟨due, -⟩ := session.observed member held fuel
  refine ⟨fun n put some => ?_, fun ctx enters recording op mid after f housed each ended => ?_,
    fun key v ctx mid declared put recording f after ended => ?_⟩
  · obtain ⟨ctx, inner⟩ := Option.isSome_iff_exists.mp some
    exact ((due n put).ready inner).1
  -- The contract of the call holds at each request put in its course, so programs that are run in
  -- such a context can be surveyed again from there.
  · have ready : ctx.Ready (i.surveyed B) := by
      cases enters with
      | start => exact Interpreter.context_ready rfl rfl
      | request put inner =>
        obtain ⟨-, ready⟩ := (due _ put).ready inner
        exact ⟨⟨ready.environment, ready.limit, ready.sound⟩, ready.idle⟩
    have fences : mid.Fences (i.surveyed B).named (i.surveyed B).environment :=
      Interpreter.surveyed_fences housed
    have within : ∀ v ∈ op.values, mid.Within (i.surveyed B).named v := fun v member => by
      obtain ⟨t, bears⟩ := each v member
      exact ⟨t, bears, fun _ _ => trivial⟩
    have traces := Interpreter.surveyed_ends (Operation.endsFairly fences ready within) ended f rfl
    refine ⟨traces.shows recording ready.limit, fun free => ?_⟩
    obtain ⟨shown, traces⟩ :=
      Interpreter.surveyed_ends (Operation.enters fences ready within free) ended
    have leads := CallStack.leads_enter ctx.stack (op.label shown) (mid.node op.subject).location
    have frame := (traces f rfl).shows (leads.recording.trans recording)
      (leads.limit.trans ready.limit)
    rw [CallStack.backtrace, CallStack.frames_enter ready.sound recording] at frame
    exact ⟨shown, frame⟩
  · cases due _ put with
    | resolve fences placed bears permits =>
      have fences' := Interpreter.surveyed_fences (B := B) fences.houses
      have placed' : ctx.Placed (i.surveyed B) :=
        ⟨placed.environment, placed.limit, placed.sound⟩
      have traces : f.Traces ctx.stack := by
        rcases ended with asked | asked
        · exact Interpreter.surveyed_ends (answer?_traces declared fences' placed' bears permits)
            asked f rfl
        · exact Interpreter.surveyed_ends (answer_traces declared fences' placed' bears permits)
            asked f rfl
      exact traces.shows recording placed.limit

def unboundWorld : World Host.unit :=
  { World.initial () with cells := #[⟨.single Key.name ⟨"x"⟩ none, []⟩] }

theorem unbound_traced :
    ∃ (w after : World Host.unit) (i : Interpreter) (f : Failure) (shown : String),
      Session inert w [⟨0⟩] [i] ∧ (Value.evaluate ⟨0⟩ i.context).Ends inert w (.error f) after ∧
      f.cause = .unbound "x" ∧ f.Shows [⟨s!"evaluating {shown}", none⟩] (some 64) := by
  have name : unboundWorld.Spells True ⟨0⟩ (.name ⟨"x"⟩ none) := .of_read 4 rfl
  have start : Session inert unboundWorld [⟨0⟩] [] := .start fun v member =>
    ⟨_, rfl, List.mem_singleton.mp member ▸ name⟩
  obtain ⟨w, f, after, built, unbound, located, ended⟩ : ∃ w f after,
      (Interpreter.build ⟨some 64, true⟩ none []).Ends inert unboundWorld
        (.ok ⟨⟨0⟩, ⟨some 64, true⟩⟩) w ∧ f.cause = .unbound "x" ∧
      (w.node ⟨0⟩).location = none ∧
      (Value.evaluate ⟨0⟩ (Interpreter.context ⟨⟨0⟩, ⟨some 64, true⟩⟩)).Ends inert w (.error f)
        after := ⟨_, _, _, ⟨9, rfl⟩, rfl, rfl, 9, rfl⟩
  have session := start.interpreter (by simp) built
  have traced := session.failures_traced (c := .run ⟨0⟩) (List.mem_singleton_self _)
    (by simp [Call.values]) 9
  have safe := session.safe
  obtain ⟨-, entered⟩ := traced.2.1 _ .start rfl (.evaluate ⟨0⟩) w after f
    (safe.housed _ (List.mem_singleton_self _)) (by simpa [Operation.values] using safe.held) ended
  obtain ⟨shown, frame⟩ := entered rfl
  have here : (w.node (Operation.evaluate ⟨0⟩).subject).location = none := located
  rw [here] at frame
  exact ⟨w, after, _, f, shown, session, ended, unbound, frame⟩

end Session
end TraitDispatch
