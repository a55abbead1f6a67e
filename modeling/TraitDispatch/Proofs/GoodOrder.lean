import TraitDispatch.Proofs.Contract
import TraitDispatch.Proofs.Permanence
import TraitDispatch.Proofs.Reference

/- The good order of what is made of constants, in the course of any run. Whatever code does, it can
   bring wrong answers into such a value only by asking it, or one that holds it, at the wrong time:
   where there are other rules, or while something is in progress that renderings ask for. -/
namespace TraitDispatch
variable {H : Host} {α : Type} {B : Behaviour H} {w mid after : World H} {u v : Value}

namespace World

theorem Orderly.perform (orderly : w.Orderly) (a : Access H) : (a.perform w).2.Orderly := by
  have unchanged : ∀ {after : World H}, after.cells = w.cells → after.Orderly := by
    intro after cells
    refine orderly.kept (congrArg _ cells) (fun u => ?_) fun u key _ => ?_
    · simp only [World.node, cells]
    · simp only [World.remembered, cells]
  cases a with
  | create node => exact orderly.create node
  | print output line => cases output <;> exact unchanged rfl
  | _ => exact unchanged rfl

theorem Orderly.remember {key : KeyId} (orderly : w.Orderly) (foreign : ¬ w.Constant v)
    (answer : Payload H) : (w.remember v key answer).Orderly := by
  refine orderly.kept (by simp [World.remember]) (fun u => node_remember ..)
    fun u other constant => ?_
  refine w.remembered_remember_other answer ?_
  rintro ⟨rfl, -⟩
  exact foreign constant

end World

def Request.OfConstant (w : World H) : Request H → Prop
  | .resolve v _ _ => w.Constant v
  | _ => False

/-- At the moment the program puts its request, or code does that is run for it. What standard rules
    ask for in order to answer for a value that is made of constants is left out. -/
inductive Act.Puts (B : Behaviour H) : {α : Type} → Act H α → World H → Moment H → Prop where
  | here {α : Type} {r : Request H} {next : r.Answer → Act H α} {w : World H} :
      Puts B (.ask r next) w ⟨r, w⟩
  | later {α : Type} {r : Request H} {next : r.Answer → Act H α} {w mid : World H} {a : r.Answer}
      {n : Moment H} (ends : r.Ends B w a mid) (puts : Puts B (next a) mid n) :
      Puts B (.ask r next) w n
  | inside {α : Type} {r : Request H} {next : r.Answer → Act H α} {w : World H}
      {body : Act H r.Answer} {n : Moment H} (foreign : ¬ r.OfConstant w)
      (runs : r.body? B w = some body) (puts : Puts B body w n) : Puts B (.ask r next) w n

theorem Act.Puts.of_request {r : Request H} {next : r.Answer → Act H α} {n : Moment H}
    (puts : (request r).Puts B w n) : (Act.ask r next).Puts B w n := by
  cases puts with
  | here => exact .here
  | later _ nothing => cases nothing
  | inside foreign runs puts => exact .inside foreign runs puts

def Moment.Ordinary (n : Moment H) : Prop :=
  ∀ v key ctx, n.request = .resolve v key ctx → n.world.Made v ∧
    (n.world.Constant v → n.world.Standard ctx.environment ∧ ctx.stack.Bides n.world v key)

theorem orderly_at_once {r : Request H} {a : r.Answer} (at_once : r.body? B w = none)
    (orderly : w.Orderly) (ends : r.Ends B w a after) : after.Orderly := by
  cases ends.at_once at_once with
  | access access => exact orderly.perform access
  | remembered | refused => exact orderly

theorem settle_keeps_order {r : Request H} {a : r.Answer} (ordinary : (⟨r, w⟩ : Moment H).Ordinary)
    (foreign : ¬ r.OfConstant w) (orderly : mid.Orderly) (continues : w.KeepsOwnAnswers mid) :
    (r.settle a mid).Orderly := by
  cases r with
  | resolve v key ctx =>
    match a with
    | .error failure => exact orderly
    | .ok none => exact orderly
    | .ok (some answer) =>
      refine orderly.remember (fun constant => foreign ?_) answer
      exact constant.earlier continues.node (ordinary v key ctx rfl).1
  | _ => exact orderly

theorem constant_keeps_order {r : Request H} {a : r.Answer}
    (ordinary : (⟨r, w⟩ : Moment H).Ordinary) (constant : r.OfConstant w) (orderly : w.Orderly)
    (ends : r.Ends B w a after) : after.Orderly := by
  cases r with
  | resolve v key ctx =>
    obtain ⟨s, appears⟩ := orderly v constant
    obtain ⟨standard, bides⟩ := (ordinary v key ctx rfl).2 constant
    exact (ended_keepsOrder appears standard bides ends).1.orderly orderly
  | _ => cases constant

section Running
variable {fuel : Nat}

theorem orderly_of_run
    (each : ∀ (r : Request H) (w : World H) a after, respond B fuel r w = some (a, after) →
      w.Orderly → (∀ n, (Act.request r).Puts B w n → n.Ordinary) → after.Orderly)
    {m : Act H α} {a : α} (ran : m.run (respond B fuel) w = some (a, after)) (orderly : w.Orderly)
    (ordinary : ∀ n, m.Puts B w n → n.Ordinary) : after.Orderly := by
  induction m generalizing w with
  | done b =>
    cases ran
    exact orderly
  | ask r next ih =>
    obtain ⟨⟨b, mid⟩, answered, ran⟩ := Act.run_ask_eq_some_iff.mp ran
    have first : mid.Orderly := each r w b mid answered orderly fun n puts =>
      ordinary n puts.of_request
    exact ih b ran first fun n puts => ordinary n (.later ⟨fuel, answered⟩ puts)

theorem orderly_of_respond (fuel : Nat) (r : Request H) (w : World H) (a : r.Answer)
    (after : World H) (answered : respond B fuel r w = some (a, after)) (orderly : w.Orderly)
    (ordinary : ∀ n, (Act.request r).Puts B w n → n.Ordinary) : after.Orderly := by
  induction fuel generalizing r w after with
  | zero =>
    cases r with
    | access a => exact orderly_at_once rfl orderly ⟨0, answered⟩
    | _ => cases answered
  | succ fuel ih =>
    have here : (⟨r, w⟩ : Moment H).Ordinary := ordinary _ .here
    cases runs : r.body? B w with
    | none => exact orderly_at_once runs orderly ⟨_, answered⟩
    | some body =>
      by_cases constant : r.OfConstant w
      · exact constant_keeps_order here constant orderly ⟨_, answered⟩
      · rw [respond_body runs] at answered
        obtain ⟨⟨b, mid⟩, ran, same⟩ := Option.map_eq_some_iff.mp answered
        cases same
        have inside : mid.Orderly := orderly_of_run ih ran orderly fun n puts =>
          ordinary n (.inside constant runs puts)
        exact settle_keeps_order here constant inside (keepsOwnAnswers_enduring.run ran)

end Running

/-- Whatever comes of the program, the world is in order again. -/
theorem Act.Ends.orderly {m : Act H α} {a : α} (ends : m.Ends B w a after) (orderly : w.Orderly)
    (ordinary : ∀ n, m.Puts B w n → n.Ordinary) : after.Orderly := by
  obtain ⟨fuel, ran⟩ := ends
  exact orderly_of_run (orderly_of_respond fuel) ran orderly ordinary

theorem Act.Puts.orderly {m : Act H α} {n : Moment H} (puts : m.Puts B w n) (orderly : w.Orderly)
    (ordinary : ∀ n, m.Puts B w n → n.Ordinary) : n.world.Orderly := by
  induction puts with
  | here => exact orderly
  | later ends puts ih =>
    obtain ⟨fuel, answered⟩ := ends
    have first := orderly_of_respond fuel _ _ _ _ answered orderly fun n puts =>
      ordinary n puts.of_request
    exact ih first fun n puts => ordinary n (.later ⟨fuel, answered⟩ puts)
  | inside foreign runs puts ih =>
    exact ih orderly fun n puts => ordinary n (.inside foreign runs puts)

end TraitDispatch
