import TraitDispatch.Proofs.QueuedLocations

/- What a stack has behind it. Every stack comes from an empty one by entries, derivations, queued
   locations and at some point perhaps the end of its recording, and stacks that come from one stack
   share what that one has behind it. The frames, the two counts and the derivations in progress are
   kept apart from each other, but all of them can be told from what is behind the stack. -/
namespace TraitDispatch

/-- What is done with a stack: a step is taken, or recording stops. -/
inductive StackMove where
  | quiet
  | step (taken : StackStep)

namespace StackStep

def enters (step : StackStep) : Bool := step.succeeds.isSome

def derivation? : StackStep → Option Derivation
  | .derive v key => some ⟨v, key.index⟩
  | .queue _ | .push _ _ => none

theorem recorded_length (queued : Option Location) (steps : List StackStep) :
    (recorded queued steps).length = steps.countP enters := by
  induction steps generalizing queued with
  | nil => rfl
  | cons step rest ih =>
    rw [recorded, List.countP_cons, enters]
    cases step.succeeds <;> simp [ih]

theorem derivations_length_le (steps : List StackStep) :
    (steps.filterMap derivation?).length ≤ steps.countP enters := by
  induction steps with
  | nil => simp
  | cons step rest ih =>
    rw [List.filterMap_cons, List.countP_cons]
    cases step <;> simp [derivation?, enters, succeeds] <;> omega

end StackStep

namespace StackMove

def step? : StackMove → Option StackStep
  | .quiet => none
  | .step taken => some taken

def steps (moves : List StackMove) : List StackStep := moves.filterMap step?

def heard : List StackMove → List StackStep
  | .step taken :: rest => taken :: heard rest
  | .quiet :: _ | [] => []

theorem steps_snoc (moves : List StackMove) (m : StackMove) :
    steps (moves ++ [m]) = steps moves ++ m.step?.toList := by
  cases m <;> simp [steps, step?]

theorem heard_append_of_quiet {first : List StackMove} (silenced : .quiet ∈ first)
    (second : List StackMove) : heard (first ++ second) = heard first := by
  induction first with
  | nil => cases silenced
  | cons m rest ih =>
    cases m with
    | quiet => rfl
    | step taken =>
      have later : .quiet ∈ rest := by simpa using silenced
      simp [heard, ih later]

theorem heard_append {first : List StackMove} (recording : .quiet ∉ first)
    (second : List StackMove) : heard (first ++ second) = heard first ++ heard second := by
  induction first with
  | nil => rfl
  | cons m rest ih =>
    cases m with
    | quiet => simp at recording
    | step taken =>
      have later : .quiet ∉ rest := by simpa using recording
      simp [heard, ih later]

theorem heard_prefix (moves : List StackMove) : heard moves <+: steps moves := by
  induction moves with
  | nil => simp [heard]
  | cons m rest ih =>
    cases m with
    | quiet => simp [heard]
    | step taken => simpa [heard, steps, step?] using ih

end StackMove

namespace CallStack
variable {s t : CallStack} {step : StackStep} {moves : List StackMove} {limit : Option Nat}

def move (s : CallStack) : StackMove → Except Failure CallStack
  | .quiet => .ok s.withoutRecording
  | .step step => s.take step

/-- The second stack comes from the first by these moves, each made on the stack that the one before
    has led to. -/
inductive MovesTo (s : CallStack) : List StackMove → CallStack → Prop where
  | same : MovesTo s [] s
  | moved {moves : List StackMove} {t u : CallStack} {m : StackMove} (comes : MovesTo s moves t)
      (move : t.move m = .ok u) : MovesTo s (moves ++ [m]) u

def trail (s : CallStack) : List Frame := s.frames.reverse

/-- What the stack consists of, told from the moves behind it. -/
structure Accounts (s : CallStack) (limit : Option Nat) (moves : List StackMove) : Prop where
  limit : s.limit = limit
  recording : s.recording = true ↔ .quiet ∉ moves
  queued : s.recording = true → s.queued = StackStep.waiting none (StackMove.heard moves)
  trail : s.trail = StackStep.recorded none (StackMove.heard moves)
  depth : s.depth = (StackMove.heard moves).countP StackStep.enters
  nesting : s.nesting = (StackMove.steps moves).countP StackStep.enters
  active : s.active = ((StackMove.steps moves).filterMap StackStep.derivation?).reverse
  distinct : s.active.Nodup
  inside : ∀ bound, s.limit = some bound → s.nesting ≤ bound

theorem accounts_start (limit : Option Nat) : (withLimit limit).Accounts limit [] where
  limit := rfl
  recording := by simp [withLimit]
  queued _ := rfl
  trail := rfl
  depth := rfl
  nesting := rfl
  active := rfl
  distinct := List.nodup_nil
  inside _ _ := Nat.zero_le _

theorem Accounts.atLimit_iff (accounts : s.Accounts limit moves) :
    s.atLimit = true ↔ s.limit = some s.nesting := by
  have inside := accounts.inside
  cases chosen : s.limit with
  | none => simp [atLimit, chosen]
  | some bound =>
    have below := inside bound chosen
    simp only [atLimit, chosen, decide_eq_true_eq, Option.some.injEq]
    omega

theorem Accounts.quiet (accounts : s.Accounts limit moves) :
    s.withoutRecording.Accounts limit (moves ++ [.quiet]) := by
  have heard : StackMove.heard (moves ++ [.quiet]) = StackMove.heard moves := by
    by_cases silenced : .quiet ∈ moves
    · exact StackMove.heard_append_of_quiet silenced _
    · simp [StackMove.heard_append silenced, StackMove.heard]
  have steps : StackMove.steps (moves ++ [.quiet]) = StackMove.steps moves := by
    simp [StackMove.steps_snoc, StackMove.step?]
  constructor
  · exact accounts.limit
  · simp [withoutRecording]
  · intro recording
    cases recording
  · rw [heard]
    exact accounts.trail
  · rw [heard]
    exact accounts.depth
  · rw [steps]
    exact accounts.nesting
  · rw [steps]
    exact accounts.active
  · exact accounts.distinct
  · exact accounts.inside

theorem take_counts (taken : s.take step = .ok t) :
    t.limit = s.limit ∧ t.recording = s.recording ∧
      t.nesting = s.nesting + [step].countP StackStep.enters ∧
      t.active = step.derivation?.toList ++ s.active := by
  cases step with
  | queue location =>
    cases taken
    exact ⟨rfl, rfl, rfl, rfl⟩
  | push label own =>
    obtain ⟨-, rfl⟩ := push_eq_ok_iff.mp taken
    unfold enter
    split <;> exact ⟨rfl, rfl, rfl, rfl⟩
  | derive v key =>
    obtain ⟨-, -, rfl⟩ := derive_eq_ok_iff.mp taken
    unfold enter
    split <;> exact ⟨rfl, rfl, rfl, rfl⟩

theorem take_recorded (recording : s.recording = true) (taken : s.take step = .ok t) :
    t.depth = s.depth + [step].countP StackStep.enters := by
  cases step with
  | queue location =>
    cases taken
    rfl
  | push label own =>
    obtain ⟨-, rfl⟩ := push_eq_ok_iff.mp taken
    simp [enter, recording, StackStep.enters, StackStep.succeeds]
  | derive v key =>
    obtain ⟨-, -, rfl⟩ := derive_eq_ok_iff.mp taken
    simp [enter, recording, StackStep.enters, StackStep.succeeds]

theorem take_unrecorded (quiet : s.recording = false) (taken : s.take step = .ok t) :
    t.frames = s.frames ∧ t.depth = s.depth := by
  cases step with
  | queue location =>
    cases taken
    exact ⟨rfl, rfl⟩
  | push label own =>
    obtain ⟨-, rfl⟩ := push_eq_ok_iff.mp taken
    simp [enter, quiet]
  | derive v key =>
    obtain ⟨-, -, rfl⟩ := derive_eq_ok_iff.mp taken
    simp [enter, quiet]

theorem take_admitted (taken : s.take step = .ok t) :
    (step.enters = true → s.atLimit = false) ∧ ∀ d, step.derivation? = some d → d ∉ s.active := by
  cases step with
  | queue location => exact ⟨nofun, nofun⟩
  | push label own => exact ⟨fun _ => (push_eq_ok_iff.mp taken).1, nofun⟩
  | derive v key =>
    obtain ⟨idle, free, -⟩ := derive_eq_ok_iff.mp taken
    refine ⟨fun _ => free, fun d same => ?_⟩
    cases same
    exact idle

theorem Accounts.inside_take (accounts : s.Accounts limit moves) (taken : s.take step = .ok t) :
    ∀ bound, t.limit = some bound → t.nesting ≤ bound := by
  obtain ⟨same, -, counted, -⟩ := take_counts taken
  intro bound chosen
  rw [same] at chosen
  have below := accounts.inside bound chosen
  rw [counted]
  cases enters : step.enters with
  | false => simpa [enters] using below
  | true =>
    have free := (take_admitted taken).1 enters
    have room : ¬ bound ≤ s.nesting := by simpa [atLimit, chosen] using free
    simp [enters]
    omega

theorem Accounts.distinct_take (accounts : s.Accounts limit moves)
    (taken : s.take step = .ok t) : t.active.Nodup := by
  obtain ⟨-, -, -, listed⟩ := take_counts taken
  rw [listed]
  cases derives : step.derivation? with
  | none => exact accounts.distinct
  | some d => exact List.nodup_cons.mpr ⟨(take_admitted taken).2 d derives, accounts.distinct⟩

theorem Accounts.take (accounts : s.Accounts limit moves) (taken : s.take step = .ok t) :
    t.Accounts limit (moves ++ [.step step]) := by
  obtain ⟨same, still, counted, listed⟩ := take_counts taken
  have steps : StackMove.steps (moves ++ [.step step]) = StackMove.steps moves ++ [step] :=
    StackMove.steps_snoc moves _
  have recording : t.recording = true ↔ .quiet ∉ moves ++ [.step step] := by
    rw [still, accounts.recording]
    simp
  have nesting : t.nesting =
      (StackMove.steps (moves ++ [.step step])).countP StackStep.enters := by
    rw [counted, accounts.nesting, steps, List.countP_append]
  have active : t.active =
      ((StackMove.steps (moves ++ [.step step])).filterMap StackStep.derivation?).reverse := by
    rw [listed, accounts.active, steps, List.filterMap_append, List.reverse_append]
    cases derives : step.derivation? <;> simp [derives]
  have distinct := accounts.distinct_take taken
  have inside := accounts.inside_take taken
  -- Without recording a step changes no frames, so only the tally and the derivations count.
  cases recorded : s.recording with
  | true =>
    have heard : StackMove.heard (moves ++ [.step step]) = StackMove.heard moves ++ [step] :=
      StackMove.heard_append (accounts.recording.mp recorded) _
    obtain ⟨frames, queued, -⟩ := take_frames recorded taken
    refine ⟨same.trans accounts.limit, recording, fun _ => ?_, ?_, ?_, nesting, active, distinct,
      inside⟩
    · rw [heard, queued, StackStep.waiting, List.foldl_append]
      rfl
    · rw [heard, StackStep.recorded_append, ← accounts.queued recorded, ← accounts.trail]
      simp [CallStack.trail, frames]
    · rw [heard, List.countP_append, take_recorded recorded taken, accounts.depth]
  | false =>
    have silenced : .quiet ∈ moves := Classical.byContradiction fun absent => by
      rw [accounts.recording.mpr absent] at recorded
      cases recorded
    have heard : StackMove.heard (moves ++ [.step step]) = StackMove.heard moves :=
      StackMove.heard_append_of_quiet silenced _
    obtain ⟨frames, depth⟩ := take_unrecorded recorded taken
    refine ⟨same.trans accounts.limit, recording, fun recorded' => ?_, ?_, ?_, nesting, active,
      distinct, inside⟩
    · rw [still, recorded] at recorded'
      cases recorded'
    · rw [heard, CallStack.trail, frames]
      exact accounts.trail
    · rw [heard, depth]
      exact accounts.depth

theorem MovesTo.accounts (comes : (withLimit limit).MovesTo moves s) : s.Accounts limit moves := by
  induction comes with
  | same => exact accounts_start limit
  | @moved moves t u m _ made ih =>
    cases m with
    | quiet =>
      cases made
      exact ih.quiet
    | step step => exact ih.take made

theorem MovesTo.quiet (comes : s.MovesTo moves t) (quiet : s.recording = false) :
    t.recording = false := by
  induction comes with
  | same => exact quiet
  | @moved moves t u m _ made ih =>
    cases m with
    | quiet =>
      cases made
      rfl
    | step step => exact (take_counts made).2.1.trans ih

/-- The parts of a stack agree with each other and with what is behind it, and so does what it
    refuses. -/
structure Consistent (s : CallStack) (limit : Option Nat) (moves : List StackMove) : Prop where
  limit_eq : s.limit = limit
  depth_eq_length : s.depth = s.trail.length
  depth_le_nesting : s.depth ≤ s.nesting
  nesting_eq_entries : s.nesting = (StackMove.steps moves).countP StackStep.enters
  nesting_le_limit : ∀ bound, limit = some bound → s.nesting ≤ bound
  depth_eq_heard : s.depth = (StackMove.heard moves).countP StackStep.enters
  active_eq : s.active = ((StackMove.steps moves).filterMap StackStep.derivation?).reverse
  active_nodup : s.active.Nodup
  active_length_le : s.active.length ≤ s.nesting
  trail_eq_recorded : s.trail = StackStep.recorded none (StackMove.heard moves)
  backtrace_eq_reverse : s.backtrace.frames = s.trail.reverse
  push_eq_error_iff : ∀ label own failure, s.push label own = .error failure ↔
    limit = some s.nesting ∧ failure = .withTrace (.of (.depthLimit s.nesting)) s.backtrace
  derive_eq_error_iff : ∀ v key failure, s.derive v key = .error failure ↔
    ⟨v, key.index⟩ ∈ s.active ∧
        failure = .withTrace (.of (.cyclicDerivation key.label)) s.backtrace ∨
      ⟨v, key.index⟩ ∉ s.active ∧ limit = some s.nesting ∧
        failure = .withTrace (.of (.depthLimit s.nesting)) s.backtrace
  recording_iff : s.recording = true ↔ .quiet ∉ moves
  stays_quiet : s.recording = false → ∀ more t, s.MovesTo more t → t.recording = false

theorem Accounts.limitFailure_eq (accounts : s.Accounts limit moves) (full : s.atLimit = true) :
    s.limitFailure = .withTrace (.of (.depthLimit s.nesting)) s.backtrace := by
  rw [limitFailure, accounts.atLimit_iff.mp full, Option.getD_some]

theorem Accounts.push_eq_error_iff (accounts : s.Accounts limit moves) {label : String}
    {own : Option Location} {failure : Failure} : s.push label own = .error failure ↔
      s.limit = some s.nesting ∧
        failure = .withTrace (.of (.depthLimit s.nesting)) s.backtrace := by
  rw [← accounts.atLimit_iff]
  cases full : s.atLimit with
  | false => simp [push, full]
  | true =>
    rw [push, if_pos full, accounts.limitFailure_eq full]
    simp [eq_comm]

theorem Accounts.derive_eq_error_iff (accounts : s.Accounts limit moves) {v : Value} {key : KeyId}
    {failure : Failure} : s.derive v key = .error failure ↔
      ⟨v, key.index⟩ ∈ s.active ∧
          failure = .withTrace (.of (.cyclicDerivation key.label)) s.backtrace ∨
        ⟨v, key.index⟩ ∉ s.active ∧ s.limit = some s.nesting ∧
          failure = .withTrace (.of (.depthLimit s.nesting)) s.backtrace := by
  rw [← accounts.atLimit_iff]
  by_cases cycle : ⟨v, key.index⟩ ∈ s.active
  · rw [derive, if_pos (isActive_iff.mpr cycle), Except.error.injEq, eq_comm]
    simp [cycle]
  · rw [derive, if_neg fun active => cycle (isActive_iff.mp active)]
    cases full : s.atLimit with
    | false => simp [cycle]
    | true =>
      rw [if_pos rfl, accounts.limitFailure_eq full, Except.error.injEq, eq_comm]
      simp [cycle]

theorem Accounts.consistent (accounts : s.Accounts limit moves) : s.Consistent limit moves where
  limit_eq := accounts.limit
  depth_eq_length := by rw [accounts.trail, StackStep.recorded_length, accounts.depth]
  depth_le_nesting := by
    rw [accounts.depth, accounts.nesting]
    exact (StackMove.heard_prefix moves).sublist.countP_le
  nesting_eq_entries := accounts.nesting
  nesting_le_limit bound chosen := accounts.inside bound (accounts.limit.trans chosen)
  depth_eq_heard := accounts.depth
  active_eq := accounts.active
  active_nodup := accounts.distinct
  active_length_le := by
    rw [accounts.active, accounts.nesting, List.length_reverse]
    exact StackStep.derivations_length_le _
  trail_eq_recorded := accounts.trail
  backtrace_eq_reverse := by rw [CallStack.trail, List.reverse_reverse, backtrace]
  push_eq_error_iff _ _ _ := by
    rw [← accounts.limit]
    exact accounts.push_eq_error_iff
  derive_eq_error_iff _ _ _ := by
    rw [← accounts.limit]
    exact accounts.derive_eq_error_iff
  recording_iff := accounts.recording
  stays_quiet quiet _ _ comes := comes.quiet quiet

end CallStack
end TraitDispatch
