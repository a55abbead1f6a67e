import Mathlib.Data.List.Induction
import TraitDispatch.Proofs.Accord
import TraitDispatch.Proofs.Opening
import TraitDispatch.Proofs.Traces

/- A block that is run in two parts. The statements of a block can be divided among two blocks that
   are run one after the other, unless the second gets none: for then it has a result of its own. -/
namespace TraitDispatch
variable {H : Host} {B : Behaviour H} {e : EnvironmentId} {w mid after : World H} {i : Interpreter}
  {front back rows : List (List Value)}

theorem evaluateStatements_append (result : Value) (front back : List (List Value))
    (ctx : Context) :
    (evaluateStatements result (front ++ back) ctx : Program H Value) =
      evaluateStatements result front ctx >>= (evaluateStatements · back ctx) := by
  induction front generalizing result with
  | nil => simp [evaluateStatements]
  | cons row rest ih => simp [evaluateStatements, ih]

theorem Block.evaluate_append (front back : List (List Value)) (ctx : Context) :
    (Block.evaluate ⟨front ++ back⟩ ctx : Program H Value) =
      Block.evaluate ⟨front⟩ ctx >>= (evaluateStatements · back ctx) := by
  simp [Block.evaluate, evaluateStatements_append]

theorem Block.evaluate_failed {ctx : Context} {fuel : Nat} {f : Failure}
    (failed : (Block.evaluate ⟨front⟩ ctx).perform (respond B fuel) w = some (.error f, after)) :
    (Block.evaluate ⟨front ++ back⟩ ctx).run.history B fuel w =
      (Block.evaluate ⟨front⟩ ctx).run.history B fuel w := by
  rw [Block.evaluate_append, ExceptT.run_bind, history_bind failed]
  exact List.append_nil _

theorem evaluateStatements_result (filled : rows ≠ []) (result other : Value) (ctx : Context) :
    (evaluateStatements result rows ctx : Program H Value) = evaluateStatements other rows ctx := by
  cases rows with
  | nil => exact absurd rfl filled
  | cons row rest => rfl

namespace Interpreter

/-- Makes a block of the statements and runs it. -/
def runBlock (i : Interpreter) (rows : List (List Value)) (l : Option Location) :
    Program H Value := do
  i.run (← Program.create (.single Key.block ⟨rows⟩ l))

def blockContext (i : Interpreter) (label : String) (l : Option Location) : Context :=
  i.context.withStack (i.context.stack.enter label l)

/-- The limit is met before a block comes to its first statement. -/
def Cramped (i : Interpreter) : Prop :=
  ∃ limit, i.config.limit = some limit ∧ limit < if i.config.record then 2 else 3

theorem roomy_iff :
    ¬ i.Cramped ↔ i.context.stack.Room (if i.context.stack.recording then 2 else 3) := by
  obtain ⟨-, nesting, limit⟩ := i.context_stack
  have recording : i.context.stack.recording = i.config.record := by
    rw [context]
    cases i.config.record <;> rfl
  simp only [Cramped, CallStack.Room, nesting, limit, recording]
  simp

section Blocks
variable (standard : w.Standard i.environment) (rows : List (List Value)) (l : Option Location)
include standard

theorem runBlock_opens (roomy : ¬ i.Cramped) :
    ∃ label mid, w.AddsCells 1 mid ∧ ∀ r after, (i.runBlock rows l).Ends B w r after ↔
      (Block.evaluate ⟨rows⟩ (i.blockContext label l)).Ends B mid r after := by
  obtain ⟨label, mid, touches, opens⟩ := block_opens (B := B) i.context
    (World.blocks_new standard ⟨rows⟩ l) rfl i.context_stack.1 (World.blank_new w _)
    (roomy_iff.mp roomy)
  exact ⟨label, mid, touches.addsCells, fun r after =>
    (Program.ends_bind_iff (.access (.create _) w)).trans (opens r after)⟩

theorem runBlock_refused (cramped : i.Cramped) :
    ∃ f after, w.AddsCells 1 after ∧ i.context.stack.Spends f ∧
      (i.runBlock rows l).Ends B w (.error f) after := by
  obtain ⟨f, spends, ends⟩ := block_refused (B := B) i.context
    (World.blocks_new standard ⟨rows⟩ l) rfl i.context_stack.1 (World.blank_new w _)
    fun room => roomy_iff.mpr room cramped
  exact ⟨f, _, (World.TouchesMemo.same _ _).addsCells, spends, .bind (.access (.create _) w) ends⟩

end Blocks

theorem blockContext_along (i : Interpreter) (P : Value → Value → Prop) (label label' : String)
    (l : Option Location) :
    (i.blockContext label l).Along P i.environment (i.blockContext label' l) := by
  have idle : i.context.stack.Along P i.context.stack :=
    ⟨by rw [i.context_stack.1]; exact .nil, rfl, rfl, rfl⟩
  exact ⟨rfl, rfl, idle.enter label label' l l⟩

theorem blockContext_ready (roomy : ¬ i.Cramped) (label : String) (l : Option Location) :
    (i.blockContext label l).Ready (i.surveyed B) := by
  have room : i.context.stack.Room 1 := (roomy_iff.mp roomy).fewer (by split <;> omega)
  exact (context_ready rfl rfl).enter (CallStack.atLimit_iff.mpr room) label l

theorem surveyed_keeps {m : Program H Value} {s : CallStack}
    (fares : m.EndsFairly (i.surveyed B) False s (fun _ => True) w fun v after =>
      after.Within (i.surveyed B).named v) {r : Except Failure Value} (ends : m.Ends B w r after) :
    w.KeepsBearings i.environment after ∧ after.Houses i.environment ∧ ∀ v, r = .ok v →
      after.Holds v := by
  have outcome := surveyed_ends fares ends
  exact ⟨outcome.proceeds.toKeepsBearings, outcome.proceeds.fences.houses,
    fun v same => (outcome.gives v same).holds⟩

section Division
variable (housed : w.Houses i.environment) (roomy : ¬ i.Cramped) (l : Option Location)
include housed roomy

theorem front_bisimilar (held : ∀ row ∈ front, ∀ v ∈ row, w.Holds v) (label : String)
    (pads : w.AddsCells 1 mid) :
    ∃ P, (∀ v, w.Holds v → P v v) ∧
      (Block.evaluate ⟨front⟩ (i.blockContext label l)).Bisimilar B mid (i.runBlock front l) w
        (fun after _ v _ => after.Holds v) fun after after' => w.KeepsBearings i.environment after ∧
          after.Houses i.environment ∧ after.Along P i.environment after' := by
  obtain ⟨label', mid', pads', opens⟩ := runBlock_opens (B := B) housed.standard front l roomy
  obtain ⟨P, itself, same⟩ : ∃ P, (∀ v, w.Holds v → P v v) ∧ mid.Along P i.environment mid' :=
    ⟨_, fun v holds => Or.inl ⟨⟨rfl, .inl holds⟩, holds⟩, housed.along.renew housed pads pads'⟩
  refine ⟨P, itself, ?_⟩
  have programs := Block.evaluate_along (H := H) (blockContext_along i P label label' l)
    (b := ⟨front⟩) (List.forall₂_same.mpr fun row member =>
      List.forall₂_same.mpr fun v within => itself v (held row member v within))
  have accords := programs.bisimilar (B := B) same
  refine (accords.weaken fun r after r' after' ends related along => ?_).congr
    (fun _ _ => Iff.rfl) opens
  have moves := pads.keepsBearings i.environment
  have fares := Block.evaluate_endsFairly (g := i.surveyed B) (surveyed_fences (pads.houses housed))
    (blockContext_ready roomy label l) (fun _ _ => trivial) fun row member v within =>
      surveyed_within (moves.holds (held row member v within))
  obtain ⟨moves', housed', holds⟩ := surveyed_keeps fares ends
  exact ⟨related.imp fun v _ same _ => holds v same, moves.trans moves', housed', along⟩

theorem back_bisimilar {w' : World H} {P : Value → Value → Prop}
    (held : ∀ row ∈ back, ∀ v ∈ row, w.Holds v ∧ P v v) (along : w.Along P i.environment w')
    (filled : back ≠ []) (label : String) {result : Value} (holds : w.Holds result) :
    (evaluateStatements result back (i.blockContext label l)).Bisimilar B w (i.runBlock back l) w'
      (fun after after' => after.Alike False False after') (World.Tallies i.environment) := by
  obtain ⟨label', mid', pads, opens⟩ := runBlock_opens (B := B) along.standard' back l roomy
  -- Besides the block the second run makes the empty value that it starts from.
  have empty : w'.AddsCells 2 (mid'.create (.bare none)).2 :=
    pads.trans (World.TouchesMemo.same _ _).addsCells
  have same := along.renew housed (.same w) empty
  have programs := evaluateStatements_along (H := H) (blockContext_along i _ label label' l)
    (same.fresh 0) (List.forall₂_same (l := back).mpr fun row member =>
      List.forall₂_same.mpr fun v within =>
        .inl ⟨(held row member v within).2, (held row member v within).1⟩)
  rw [evaluateStatements_result filled _ result] at programs
  have accords := programs.bisimilar (B := B) same
  refine (accords.weaken fun r after r' after' ends related along' => ?_).congr
    (fun _ _ => Iff.rfl) fun r after => ?_
  · have fares := evaluateStatements_endsFairly (g := i.surveyed B) (surveyed_fences housed)
      (blockContext_ready roomy label l) (fun _ _ => trivial) (surveyed_within holds)
      fun row member v within => surveyed_within (held row member v within).1
    obtain ⟨-, housed', returned⟩ := surveyed_keeps fares ends
    exact ⟨related.imp fun v _ same pair => along'.alike pair (returned v same),
      along'.tallies housed'⟩
  · rw [opens, evaluateStatements_result filled _ (mid'.create (.bare none)).1]
    exact Program.ends_bind_iff (.access (.create (.bare none)) mid')

end Division

/-- Whether a block is run at once or in two parts, the same comes of it. -/
theorem runBlock_divides (housed : w.Houses i.environment) (l : Option Location)
    (held : ∀ row ∈ front ++ back, ∀ v ∈ row, w.Holds v) (filled : back ≠ []) :
    (i.runBlock (front ++ back) l).Bisimilar B w (do let _ ← i.runBlock front l; i.runBlock back l)
      w (fun after after' => after.Alike False False after') (World.Tallies i.environment) := by
  by_cases cramped : i.Cramped
  · obtain ⟨f, after, pads, ⟨limit, limited, cause⟩, ends⟩ :=
      runBlock_refused (B := B) housed.standard (front ++ back) l cramped
    obtain ⟨f', after', pads', ⟨limit', limited', cause'⟩, ends'⟩ :=
      runBlock_refused (B := B) housed.standard front l cramped
    obtain rfl : limit = limit' := Option.some.inj (limited.symm.trans limited')
    exact .failed ends (.bind_failed ends') (cause.trans cause'.symm)
      ((housed.along.renew housed pads pads').tallies (pads.houses housed))
  · obtain ⟨label, mid, pads, opens⟩ :=
      runBlock_opens (B := B) housed.standard (front ++ back) l cramped
    obtain ⟨P, itself, first⟩ := front_bisimilar (B := B) housed cramped l
      (fun row member => held row (List.mem_append_left back member)) label pads
    refine Program.Bisimilar.congr ?_ opens fun _ _ => Iff.rfl
    rw [Block.evaluate_append]
    refine first.bind (fun a _ after after' holds ⟨moves, housed', along⟩ => ?_)
      fun after after' ⟨_, housed', along⟩ => along.tallies housed'
    exact back_bisimilar housed' cramped l (fun row member v within =>
      have here := held row (List.mem_append_right front member) v within
      ⟨moves.holds here, itself v here⟩) along filled label holds

/-- The statements before one of them were run as a block, and that one failed for the same. -/
inductive Breaks (B : Behaviour H) (i : Interpreter) (w : World H) (rows : List (List Value))
    (l : Option Location) (f : Failure) (after : World H) : Prop where
  | intro {before rest : List (List Value)} {statement : List Value} {v : Value}
      {mid last : World H} {f' : Failure} (parted : rows = before ++ statement :: rest)
      (ran : (i.runBlock before l).Ends B w (.ok v) mid)
      (broke : (i.runBlock [statement] l).Ends B mid (.error f') last) (cause : f.cause = f'.cause)
      (tallies : after.Tallies i.environment last) : Breaks B i w rows l f after

theorem Breaks.tallied {l : Option Location} {f f' : Failure} (breaks : i.Breaks B w rows l f after)
    (cause : f'.cause = f.cause) (tallies : mid.Tallies i.environment after) :
    i.Breaks B w rows l f' mid := by
  cases breaks with
  | intro parted ran broke same later =>
    exact .intro parted ran broke (cause.trans same) (tallies.trans later)

theorem runBlock_breaks (housed : w.Houses i.environment) (l : Option Location)
    (held : ∀ row ∈ rows, ∀ v ∈ row, w.Holds v) {f : Failure}
    (failed : (i.runBlock rows l).Ends B w (.error f) after) :
    i.Cramped ∨ i.Breaks B w rows l f after := by
  induction rows using List.reverseRecOn generalizing f after with
  | nil =>
    by_contra neither
    obtain ⟨roomy, -⟩ := not_or.mp neither
    obtain ⟨label, mid, -, opens⟩ := runBlock_opens (B := B) housed.standard [] l roomy
    have returned : (Block.evaluate ⟨[]⟩ (i.blockContext label l)).Ends B mid _ _ :=
      .bind (.access (.create (.bare none)) mid) (.done _ _)
    cases (Program.ends_unique returned ((opens _ _).mp failed)).1
  | append_singleton rows row ih =>
    -- The last statement is run as a block of its own: either it fails, or one before it.
    obtain ⟨r, last, ended, cause, tallies⟩ :=
      (runBlock_divides (B := B) housed l held (List.cons_ne_nil row [])).follows _ _ failed
    rcases ended.through with ⟨failure, rfl, failed'⟩ | ⟨v, mid, ran, broke⟩
    · have held' : ∀ row ∈ rows, ∀ v ∈ row, w.Holds v := fun row member =>
        held row (List.mem_append_left _ member)
      refine (ih held' failed').imp_right fun breaks => ?_
      cases breaks.tallied cause tallies with
      | intro parted ran broke same later =>
        exact .intro (by rw [parted, List.append_assoc, List.cons_append]) ran broke same later
    · cases r with
      | ok v => exact cause.elim
      | error failure => exact .inr (.intro rfl ran broke cause tallies)

end Interpreter

namespace Session
variable {hand : List Value} {served : List Interpreter}

/-- Running the statements of a block at once comes to the same as running the first of them as a
    block and then, if that returned, the others. If it did not then the statements before one of
    them were run, that one failed, and what they left is all that is left; or else the limit was
    too low for any statement, and nothing has changed. No request is put for the others then. -/
theorem runs_divide (session : Session B w hand served) (member : i ∈ served)
    (held : ∀ row ∈ front ++ back, ∀ v ∈ row, v ∈ hand) (filled : back ≠ []) (l : Option Location) :
    (i.runBlock (front ++ back) l).Bisimilar B w (do let _ ← i.runBlock front l; i.runBlock back l)
      w (fun after after' => after.Alike False False after') (World.Tallies i.environment) ∧
    (∀ f after, (i.runBlock front l).Ends B w (.error f) after →
      ∃ f' after', (i.runBlock (front ++ back) l).Ends B w (.error f') after' ∧
        f'.cause = f.cause ∧ after'.Tallies i.environment after ∧
        (i.Cramped ∧ w.KeepsSurroundings after' ∨ i.Breaks B w front l f' after')) ∧
    ∀ fuel ctx (mid : World H) f after, (Block.evaluate ⟨front⟩ ctx).perform (respond B fuel) mid =
        some (.error f, after) →
      (Block.evaluate ⟨front ++ back⟩ ctx).run.history B fuel mid =
        (Block.evaluate ⟨front⟩ ctx).run.history B fuel mid := by
  have safe := session.safe
  have housed := safe.housed i member
  have holds : ∀ row ∈ front ++ back, ∀ v ∈ row, w.Holds v := fun row listed v within =>
    safe.held v (held row listed v within)
  have divides := Interpreter.runBlock_divides (B := B) housed l holds filled
  refine ⟨divides, fun f after failed => ?_, fun fuel ctx mid f after => Block.evaluate_failed⟩
  obtain ⟨r, after', ended, cause, tallies⟩ := divides.leads _ _ (.bind_failed failed)
  cases r with
  | ok v => exact cause.elim
  | error f' =>
    refine ⟨f', after', ended, cause, tallies, ?_⟩
    by_cases cramped : i.Cramped
    · obtain ⟨f'', last, pads, -, refused⟩ :=
        Interpreter.runBlock_refused (B := B) housed.standard (front ++ back) l cramped
      obtain ⟨-, rfl⟩ := Program.ends_unique ended refused
      exact .inl ⟨cramped, pads.environments, pads.buffers, pads.console⟩
    · have breaks := (Interpreter.runBlock_breaks housed l (fun row listed =>
        holds row (List.mem_append_left back listed)) failed).resolve_left cramped
      exact .inr (breaks.tallied cause tallies)

def statementWorld : World Host.unit :=
  { World.initial () with
    cells := #[⟨.single Key.name ⟨"x"⟩ none, []⟩, ⟨.single Key.name assignmentMark none, []⟩,
      ⟨.single Key.number ⟨0⟩ none, []⟩, ⟨.single Key.name ⟨"y"⟩ none, []⟩] }

/-- The assignment is made, the name is not found, and what follows is not run. -/
theorem assigned_before_failure :
    ∃ (w after : World Host.unit) (i : Interpreter) (f : Failure),
      Session inert w [⟨0⟩, ⟨1⟩, ⟨2⟩, ⟨3⟩] [i] ∧
      (i.runBlock ([[⟨0⟩, ⟨1⟩, ⟨2⟩], [⟨3⟩]] ++ [[⟨3⟩, ⟨1⟩, ⟨2⟩]]) none).Ends inert w (.error f)
        after ∧ f.cause = .unbound "y" ∧ ((after.environment i.environment).lookup "x").isSome ∧
      i.Breaks inert w [[⟨0⟩, ⟨1⟩, ⟨2⟩], [⟨3⟩]] none f after := by
  have x : statementWorld.Spells True ⟨0⟩ (.name ⟨"x"⟩ none) := .of_read 4 rfl
  have mark : statementWorld.Spells True ⟨1⟩ (.name assignmentMark none) := .of_read 4 rfl
  have number : statementWorld.Spells True ⟨2⟩ (.number ⟨0⟩ none) := .of_read 4 rfl
  have y : statementWorld.Spells True ⟨3⟩ (.name ⟨"y"⟩ none) := .of_read 4 rfl
  have start : Session inert statementWorld [⟨0⟩, ⟨1⟩, ⟨2⟩, ⟨3⟩] [] := .start (by
    simpa using ⟨⟨_, rfl, x⟩, ⟨_, rfl, mark⟩, ⟨_, rfl, number⟩, _, rfl, y⟩)
  obtain ⟨w, f, after, built, failed, cause, bound⟩ : ∃ w f after,
      (Interpreter.build ⟨some 64, true⟩ none []).Ends inert statementWorld
        (.ok ⟨⟨0⟩, ⟨some 64, true⟩⟩) w ∧
      (Interpreter.runBlock ⟨⟨0⟩, ⟨some 64, true⟩⟩ [[⟨0⟩, ⟨1⟩, ⟨2⟩], [⟨3⟩]] none).Ends inert w
        (.error f) after ∧ f.cause = .unbound "y" ∧
      (after.environment ⟨0⟩).lookup "x" = some ⟨2⟩ := ⟨_, _, _, ⟨9, rfl⟩, ⟨12, rfl⟩, rfl, rfl⟩
  have session := start.interpreter (by simp) built
  have held : ∀ row ∈ [[⟨0⟩, ⟨1⟩, ⟨2⟩], [⟨3⟩]] ++ [[⟨3⟩, ⟨1⟩, ⟨2⟩]],
      ∀ v ∈ row, v ∈ ([⟨0⟩, ⟨1⟩, ⟨2⟩, ⟨3⟩] : List Value) := by simp
  obtain ⟨f', after', ended, same, tallies, ending⟩ :=
    (session.runs_divide (List.mem_singleton_self _) held (List.cons_ne_nil _ _) none).2.1 f after
      failed
  have breaks := ending.resolve_left fun ⟨⟨limit, limited, low⟩, _⟩ => by
    cases limited
    exact absurd low (by decide)
  have still := tallies.bindings "x"
  rw [bound] at still
  refine ⟨w, after', _, f', session, ended, same.trans cause, ?_, breaks⟩
  generalize (after'.environment ⟨0⟩).lookup "x" = found at still ⊢
  cases still
  rfl

end Session
end TraitDispatch
