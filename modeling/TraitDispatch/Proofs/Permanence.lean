import TraitDispatch.Proofs.Contract
import TraitDispatch.Proofs.Precedence
import TraitDispatch.Proofs.Representation

/- What no program can undo. Whatever instances, rules and functions do, a value stays what it is,
   and what it has at once is all that it can come to remember for the key. -/
namespace TraitDispatch
variable {H : Host} {α : Type} {B : Behaviour H} {fuel : Nat} {w mid after : World H} {v : Value}

namespace World

structure KeepsOwnAnswers (w after : World H) : Prop extends KeepsNodes w after where
  recalls : ∀ v key p, (w.node v).own? key = some p → w.Recalls v key → after.Recalls v key

theorem made_of_own {key : KeyId} {p : Payload H} (own : (w.node v).own? key = some p) :
    w.Made v := by
  apply made_of_instances
  intro none
  simp [Node.own?, Node.find?, none] at own

namespace KeepsOwnAnswers

theorem of_memo_eq (nodes : w.KeepsNodes after)
    (memo : ∀ v key, after.remembered v key = w.remembered v key) : w.KeepsOwnAnswers after where
  toKeepsNodes := nodes
  recalls v key p own recalls answer found := by
    rw [memo] at found
    rw [nodes.node v (made_of_own own)]
    exact recalls answer found

theorem same (w : World H) : w.KeepsOwnAnswers w := .of_memo_eq (.same w) fun _ _ => rfl

theorem trans (first : w.KeepsOwnAnswers mid) (second : mid.KeepsOwnAnswers after) :
    w.KeepsOwnAnswers after where
  toKeepsNodes := first.toKeepsNodes.trans second.toKeepsNodes
  recalls v key p own recalls := by
    refine second.recalls v key p ?_ (first.recalls v key p own recalls)
    rw [first.node v (made_of_own own), own]

theorem perform (a : Access H) (w : World H) : w.KeepsOwnAnswers (a.perform w).2 := by
  have apart : ∀ after : World H, after.cells = w.cells →
    w.KeepsOwnAnswers after := fun after same =>
    .of_memo_eq (.of_cells_eq same) fun v key => by simp only [World.remembered, same]
  cases a with
  | create node => exact .of_memo_eq (.create w node) (w.remembered_create node)
  | print output line => cases output <;> exact apart _ rfl
  | _ => exact apart _ rfl

theorem remember {key : KeyId} {answer : Payload H} (continues : w.KeepsOwnAnswers mid)
    (own : ∀ p, (w.node v).own? key = some p → answer = p) :
    w.KeepsOwnAnswers (mid.remember v key answer) where
  toKeepsNodes := continues.toKeepsNodes.trans (.remember mid v key answer)
  recalls u other p found recalls q memo := by
    have kept := continues.recalls u other p found recalls
    rw [node_remember]
    rcases remembered_of_remember memo with ⟨rfl, index, rfl⟩ | old
    · rw [continues.node u (made_of_own found), Node.standard?, found]
      rw [Node.own?, Node.find?_congr _ index] at found
      exact congrArg some (own p found).symm
    · exact kept q old

end KeepsOwnAnswers
end World

theorem answer_of_own {key : KeyId} {ctx : Context} {p answer : Payload H}
    (derives : (Request.resolve v key ctx).body? B w ≠ none)
    (ends : (Request.resolve v key ctx).Ends B w (.ok (some answer)) after)
    (own : (w.node v).own? key = some p) : answer = p := by
  obtain ⟨body, runs⟩ := Option.ne_none_iff_exists'.mp derives
  obtain ⟨mid, ⟨fuel, ran⟩, -⟩ := ends.body runs
  obtain ⟨-, stack, -, rfl⟩ := Request.body?_resolve_iff.mp runs
  rw [deriveAnswer_own own] at ran
  cases ran
  rfl

theorem keepsOwnAnswers_enduring : World.Enduring B (World.KeepsOwnAnswers (H := H)) where
  same := .same
  trans first second := first.trans second
  perform := .perform
  remember derives ends continues := continues.remember fun _ own => answer_of_own derives ends own

theorem Program.perform_keepsOwnAnswers {m : Program H α} {r : Except Failure α}
    (ran : m.perform (respond B fuel) w = some (r, after)) : w.KeepsOwnAnswers after :=
  keepsOwnAnswers_enduring.run ran

end TraitDispatch
