import TraitDispatch.CallStack

/- Where queued locations go. A chain of steps leads from a stack to one below it. Every frame on
   the way has its own location if it brings one, and else the one that was queued last since the
   frame before; so whichever frame comes next uses up what was queued, whether it has a use for it
   or not. -/
namespace TraitDispatch

inductive StackStep where
  | queue (location : Location)
  | push (label : String) (own : Option Location)
  | derive (v : Value) (key : KeyId)

namespace StackStep

/-- Label and location that the step brings along for a frame, if it records one. -/
def succeeds : StackStep → Option (String × Option Location)
  | queue _ => none
  | push label own => some (label, own)
  | derive _ key => some (s!"deriving {key.label}", none)

def queues : StackStep → Option Location
  | queue location => some location
  | push _ _ | derive _ _ => none

def waiting (queued : Option Location) (steps : List StackStep) : Option Location :=
  steps.foldl (fun _ step => step.queues) queued

def recorded (queued : Option Location) : List StackStep → List Frame
  | [] => []
  | step :: rest =>
    match step.succeeds with
    | some (label, own) => ⟨label, own <|> queued⟩ :: recorded step.queues rest
    | none => recorded step.queues rest

theorem recorded_append (queued : Option Location) (first second : List StackStep) :
    recorded queued (first ++ second) =
      recorded queued first ++ recorded (waiting queued first) second := by
  induction first generalizing queued with
  | nil => rfl
  | cons step rest ih =>
    rw [List.cons_append, recorded, recorded, waiting, List.foldl_cons]
    cases step.succeeds with
    | none => exact ih _
    | some brought => rw [List.cons_append]; exact congrArg _ (ih _)

end StackStep

namespace CallStack
variable {s t : CallStack} {step : StackStep} {steps : List StackStep}

def take (s : CallStack) : StackStep → Except Failure CallStack
  | .queue location => .ok (s.queue location)
  | .push label own => s.push label own
  | .derive v key => s.derive v key

/-- A chain of steps, each taken on the stack that the one before has led to. -/
def follow (s : CallStack) (steps : List StackStep) : Except Failure CallStack :=
  steps.foldlM take s

theorem follow_cons : s.follow (step :: steps) = .ok t ↔
    ∃ inner, s.take step = .ok inner ∧ inner.follow steps = .ok t := by
  rw [follow, List.foldlM_cons]
  cases s.take step with
  | error failure => exact ⟨nofun, by rintro ⟨_, impossible, -⟩; cases impossible⟩
  | ok inner =>
    constructor
    · intro followed
      exact ⟨inner, rfl, followed⟩
    · rintro ⟨_, same, followed⟩
      cases same
      exact followed

theorem enter_recording (recording : s.recording = true) (label : String)
    (own : Option Location) :
    (s.enter label own).frames = ⟨label, own <|> s.queued⟩ :: s.frames ∧
      (s.enter label own).queued = none ∧ (s.enter label own).recording = true := by
  rw [enter, if_pos recording]
  exact ⟨rfl, rfl, recording⟩

theorem take_frames (recording : s.recording = true) (taken : s.take step = .ok t) :
    t.frames = (StackStep.recorded s.queued [step]).reverse ++ s.frames ∧
      t.queued = step.queues ∧ t.recording = true := by
  cases step with
  | queue location =>
    cases taken
    exact ⟨rfl, rfl, recording⟩
  | push label own =>
    obtain ⟨-, rfl⟩ := push_eq_ok_iff.mp taken
    exact enter_recording recording label own
  | derive v key =>
    obtain ⟨-, -, rfl⟩ := derive_eq_ok_iff.mp taken
    exact enter_recording recording _ none

theorem follow_frames (recording : s.recording = true) (followed : s.follow steps = .ok t) :
    t.frames = (StackStep.recorded s.queued steps).reverse ++ s.frames ∧
      t.queued = StackStep.waiting s.queued steps := by
  induction steps generalizing s with
  | nil =>
    cases followed
    exact ⟨rfl, rfl⟩
  | cons step rest ih =>
    obtain ⟨inner, taken, followed⟩ := follow_cons.mp followed
    obtain ⟨frames, queued, still⟩ := take_frames recording taken
    obtain ⟨below, left⟩ := ih still followed
    have parted : StackStep.recorded s.queued (step :: rest) =
        StackStep.recorded s.queued [step] ++ StackStep.recorded step.queues rest :=
      StackStep.recorded_append s.queued [step] rest
    constructor
    · rw [below, frames, queued, parted, List.reverse_append, List.append_assoc]
    · rw [left, queued]
      rfl

end CallStack

/-- On a chain of steps from a stack that records, every frame has the location that it brings
    along, if it brings one, and else the one queued last since the frame before. What was queued
    has no part in the frames that come later. -/
theorem queued_location_placed {s t : CallStack} {steps : List StackStep}
    (recording : s.recording = true) (followed : s.follow steps = .ok t) :
    t.frames = (StackStep.recorded s.queued steps).reverse ++ s.frames ∧
      t.queued = StackStep.waiting s.queued steps ∧
      ∀ before step rest label own, steps = before ++ step :: rest →
        step.succeeds = some (label, own) →
          StackStep.recorded s.queued steps = StackStep.recorded s.queued before ++
            ⟨label, own <|> StackStep.waiting s.queued before⟩ :: StackStep.recorded none rest := by
  obtain ⟨frames, left⟩ := CallStack.follow_frames recording followed
  refine ⟨frames, left, fun before step rest label own listed succeeds => ?_⟩
  have used : step.queues = none := by
    cases step with
    | queue location => cases succeeds
    | push label own => rfl
    | derive v key => rfl
  rw [listed, StackStep.recorded_append, StackStep.recorded, succeeds, used]

/-- The second of two locations queued is the one that a derivation is given. -/
theorem requeued_location_placed :
    ∃ t, CallStack.fresh.recording = true ∧
      CallStack.fresh.follow [.queue ⟨none, 1, 1⟩, .queue ⟨none, 2, 2⟩, .derive ⟨0⟩ Key.text.id,
        .push "after" none] = .ok t ∧
      t.frames = [⟨"after", none⟩, ⟨"deriving Text", some ⟨none, 2, 2⟩⟩] := by
  obtain ⟨t, followed⟩ : ∃ t, CallStack.fresh.follow [.queue ⟨none, 1, 1⟩, .queue ⟨none, 2, 2⟩,
      .derive ⟨0⟩ Key.text.id, .push "after" none] = .ok t := ⟨_, rfl⟩
  exact ⟨t, rfl, followed, (queued_location_placed rfl followed).1⟩

/-- Frames as they would be if those that bring a location along left alone what is queued. -/
def StackStep.owed (queued : Option Location) : List StackStep → List Frame
  | [] => []
  | step :: rest =>
    match step.succeeds with
    | some (label, some own) => ⟨label, some own⟩ :: owed queued rest
    | some (label, none) => ⟨label, queued⟩ :: owed none rest
    | none => owed step.queues rest

/-- They do not: a frame with a location of its own comes between, and the location is lost. -/
theorem queued_location_lost :
    ¬ ∀ (s t : CallStack) (steps : List StackStep), s.recording = true → s.follow steps = .ok t →
      t.frames = (StackStep.owed s.queued steps).reverse ++ s.frames := by
  intro owed
  have found := owed .fresh _ [.queue ⟨none, 1, 1⟩, .push "call" (some ⟨none, 9, 9⟩),
    .push "after" none] rfl rfl
  have last := congrArg (fun frames => frames.head?.bind (·.location)) found
  cases last

end TraitDispatch
