import Mathlib.Algebra.BigOperators.Finprod
import Mathlib.Data.Set.Card
import Mathlib.Logic.Equiv.Basic
import TraitDispatch.Description
import TraitDispatch.Proofs.Contract

/- Lists of rules in the course of runs. Code may put another environment in the place of the one
   that it is given, so an environment is followed to wherever it is put. Whoever registers a rule
   in it, and however deep in a search, the rule comes last among those for its key. So the lists
   only grow, and a rule keeps its place for good. The count of registrations, which is kept apart,
   goes up with every rule. -/
namespace TraitDispatch
variable {H : Host} {α : Type} {B : Behaviour H} {fuel : Nat} {e e' e'' : EnvironmentId}
  {w mid after : World H}

def Moment.registers? (e : EnvironmentId) (n : Moment H) : Option (Rule H) :=
  match n.request with
  | .access (.register other rule) => if other = e then some rule else none
  | _ => none

def Moment.seat (n : Moment H) (e : EnvironmentId) : EnvironmentId :=
  match n.request with
  | .access (.exchange a b) =>
    if a.index < n.world.environments.size ∧ b.index < n.world.environments.size then
      Equiv.swap a b e
    else e
  | _ => e

/-- The place of an environment once all of the requests have been put. -/
def seat (e : EnvironmentId) (moments : List (Moment H)) : EnvironmentId :=
  moments.foldl (fun e n => n.seat e) e

/-- Rules registered in the environment, wherever it is. -/
def registered : EnvironmentId → List (Moment H) → List (Rule H)
  | _, [] => []
  | e, n :: later => (n.registers? e).toList ++ registered (n.seat e) later

theorem registered_append (first second : List (Moment H)) :
    registered e (first ++ second) = registered e first ++ registered (seat e first) second := by
  induction first generalizing e with
  | nil => rfl
  | cons n later ih => simp only [List.cons_append, registered, ih, seat, List.foldl_cons,
      List.append_assoc]

theorem seat_surjective (moments : List (Moment H)) : Function.Surjective (seat · moments) := by
  induction moments with
  | nil => exact fun e => ⟨e, rfl⟩
  | cons n later ih =>
    intro e
    obtain ⟨between, rfl⟩ := ih e
    obtain ⟨origin, rfl⟩ : ∃ origin, n.seat origin = between := by
      unfold Moment.seat
      split
      · split
        · exact (Equiv.swap _ _).surjective between
        · exact ⟨between, rfl⟩
      · exact ⟨between, rfl⟩
    exact ⟨origin, rfl⟩

section Still
variable {moments : List (Moment H)} (still : ∀ n ∈ moments, n.seat e = e)
include still

theorem seat_of_still : seat e moments = e := by
  induction moments with
  | nil => rfl
  | cons n later ih =>
    obtain ⟨here, others⟩ := List.forall_mem_cons.mp still
    rw [seat, List.foldl_cons, here]
    exact ih others

end Still

/-- As many registrations are counted as there are rules. -/
def Environment.Counted (E : Environment H) : Prop := E.registrations = E.rules.length

def World.Counted (w : World H) : Prop := ∀ e, (w.environment e).Counted

/-- An environment goes from one place to another, if it is there. It keeps its rules, and those
    given come behind them and are counted. -/
structure World.Appends (given : List (Rule H)) (w : World H) (e : EnvironmentId) (after : World H)
    (e' : EnvironmentId) : Prop where
  housed : e.index < w.environments.size → e'.index < after.environments.size
  rules : e.index < w.environments.size →
    (after.environment e').rules = (w.environment e).rules ++ given
  registrations : e.index < w.environments.size →
    (after.environment e').registrations = (w.environment e).registrations + given.length

namespace World.Appends
variable {rules later : List (Rule H)}

theorem of_environments_eq (same : after.environments = w.environments) (e : EnvironmentId) :
    w.Appends [] e after e := by
  have here : after.environment e = w.environment e := by simp only [World.environment, same]
  refine ⟨fun housed => same ▸ housed, fun _ => ?_, fun _ => ?_⟩
  · rw [here, List.append_nil]
  · rw [here, List.length_nil, Nat.add_zero]

theorem same (w : World H) (e : EnvironmentId) : w.Appends [] e w e := .of_environments_eq rfl e

theorem trans (first : w.Appends rules e mid e') (second : mid.Appends later e' after e'') :
    w.Appends (rules ++ later) e after e'' where
  housed housed := second.housed (first.housed housed)
  rules housed := by
    rw [second.rules (first.housed housed), first.rules housed, List.append_assoc]
  registrations housed := by
    rw [second.registrations (first.housed housed), first.registrations housed, List.length_append,
      Nat.add_assoc]

theorem change (f : Environment H → Environment H) (other : EnvironmentId)
    (appended : other = e → ∀ E : Environment H, (f E).rules = E.rules ++ rules ∧
      (f E).registrations = E.registrations + rules.length)
    (kept : other ≠ e → rules = []) : w.Appends rules e (w.change other f) e := by
  have size : (w.change other f).environments.size = w.environments.size := by simp [World.change]
  refine ⟨fun housed => by rwa [size], fun housed => ?_, fun housed => ?_⟩
  all_goals by_cases same : other = e
  · subst same
    rw [environment_change _ _ _ _ housed, if_pos rfl, (appended rfl _).1]
  · rw [environment_change_elsewhere w f (Ne.symm same), kept same, List.append_nil]
  · subst same
    rw [environment_change _ _ _ _ housed, if_pos rfl, (appended rfl _).2]
  · rw [environment_change_elsewhere w f (Ne.symm same), kept same, List.length_nil, Nat.add_zero]

theorem addEnvironment (w : World H) (e : EnvironmentId) : w.Appends [] e w.addEnvironment.2 e := by
  have size : w.addEnvironment.2.environments.size = w.environments.size + 1 := Array.size_push _
  refine ⟨fun housed => by omega, fun _ => ?_, fun _ => ?_⟩
  · rw [environment_add, List.append_nil]
  · rw [environment_add, List.length_nil, Nat.add_zero]

theorem exchange (w : World H) (a b e : EnvironmentId) :
    w.Appends [] e (w.exchange a b) ((⟨.access (.exchange a b), w⟩ : Moment H).seat e) := by
  unfold Moment.seat
  dsimp only
  split
  · rename_i made
    have size : (w.exchange a b).environments.size = w.environments.size :=
      Array.size_swapIfInBounds
    have here : (w.exchange a b).environment (Equiv.swap a b e) = w.environment e := by
      rw [environment_exchange w a b _ made.1 made.2, ← Equiv.swap_apply_def, Equiv.swap_apply_self]
    refine ⟨fun housed => ?_, fun _ => ?_, fun _ => ?_⟩
    · rw [size, Equiv.swap_apply_def]
      split
      · exact made.2
      · split
        · exact made.1
        · exact housed
    · rw [here, List.append_nil]
    · rw [here, List.length_nil, Nat.add_zero]
  · rename_i unmade
    rw [exchange_unmade w a b unmade]
    exact same w e

theorem perform (a : Access H) (w : World H) (e : EnvironmentId) :
    w.Appends ((⟨.access a, w⟩ : Moment H).registers? e).toList e (a.perform w).2
      ((⟨.access a, w⟩ : Moment H).seat e) := by
  have apart : ∀ after : World H, after.environments = w.environments → w.Appends [] e after e :=
    fun _ same => of_environments_eq same e
  cases a with
  | register other rule =>
    refine change _ other (fun same E => ?_) fun apart => ?_
    · simp [Moment.registers?, same, Environment.register]
    · simp [Moment.registers?, apart]
  | define other name value | setOutput other output | setSlot other slot =>
    exact change _ other (fun _ E => ⟨(List.append_nil _).symm, rfl⟩) fun _ => rfl
  | addEnvironment => exact addEnvironment w e
  | exchange a b => exact exchange w a b e
  | print output line => cases output <;> exact apart _ rfl
  | _ => exact apart _ rfl

end World.Appends

theorem World.Counted.perform (counted : w.Counted) (a : Access H) : (a.perform w).2.Counted := by
  have changed : ∀ (e : EnvironmentId) (f : Environment H → Environment H),
      (∀ E : Environment H, E.Counted → (f E).Counted) → (w.change e f).Counted := by
    intro e f keeps other
    rcases w.environment_change_cases e other f with same | changed
    · rw [same]
      exact counted other
    · rw [changed]
      exact keeps _ (counted other)
  cases a with
  | register e rule =>
    refine changed e _ fun E here => ?_
    simp only [Environment.Counted, Environment.register, List.length_append, List.length_singleton]
    rw [here]
  | define e name value | setOutput e output | setSlot e slot =>
    exact changed e _ fun E here => here
  | addEnvironment =>
    intro e
    rw [Access.perform, environment_add]
    exact counted e
  | exchange a b =>
    intro e
    obtain ⟨other, same⟩ := w.environment_exchange_cases a b e
    rw [Access.perform, same]
    exact counted other
  | print output line => cases output <;> exact counted
  | _ => exact counted

theorem counted_enduring :
    World.Enduring B fun (w after : World H) => w.Counted → after.Counted where
  same _ counted := counted
  trans first second counted := second (first counted)
  perform a _ counted := counted.perform a
  remember _ _ kept counted := kept counted

theorem appends_at_once {r : Request H} {a : r.Answer} (at_once : r.body? B w = none)
    (answered : respond B fuel r w = some (a, after)) (e : EnvironmentId) :
    w.Appends ((⟨r, w⟩ : Moment H).registers? e).toList e after ((⟨r, w⟩ : Moment H).seat e) := by
  have ends : r.Ends B w a after := ⟨fuel, answered⟩
  cases ends.at_once at_once with
  | access access => exact .perform access w e
  | remembered | refused => exact .same w e

theorem settle_appends {r : Request H} (a : r.Answer) (w : World H) (e : EnvironmentId) :
    w.Appends [] e (r.settle a w) e := by
  have apart : (r.settle a w).environments = w.environments := by
    cases r with
    | resolve v key ctx => match a with | .error _ | .ok none | .ok (some _) => rfl
    | _ => rfl
  exact .of_environments_eq apart e

/-- From one moment to the next an environment takes in what is registered there at the first, and
    goes where the first puts it. Before the first and behind the last nothing happens to it. -/
inductive Trail : World H → EnvironmentId → List (Moment H) → World H → Prop where
  | rest {w after : World H} {e : EnvironmentId} (idle : w.Appends [] e after e) :
      Trail w e [] after
  | step {w mid after : World H} {e : EnvironmentId} {n : Moment H} {later : List (Moment H)}
      (idle : w.Appends [] e n.world e)
      (put : n.world.Appends (n.registers? e).toList e mid (n.seat e))
      (tail : Trail mid (n.seat e) later after) : Trail w e (n :: later) after

namespace Trail
variable {first second : List (Moment H)} {n : Moment H}

theorem before (idle : w.Appends [] e mid e) (trail : Trail mid e first after) :
    Trail w e first after := by
  cases trail with
  | rest idle' => exact .rest (idle.trans idle')
  | step idle' put tail => exact .step (idle.trans idle') put tail

theorem append (begun : Trail w e first mid) (ended : Trail mid (seat e first) second after) :
    Trail w e (first ++ second) after := by
  induction begun with
  | rest idle => exact ended.before idle
  | step idle put _ ih => exact .step idle put (ih ended)

theorem whole (trail : Trail w e first after) :
    w.Appends (registered e first) e after (seat e first) := by
  induction trail with
  | rest idle => exact idle
  | step idle put _ ih => exact (idle.trans put).trans ih

theorem divide (trail : Trail w e (first ++ n :: second) after) :
    w.Appends (registered e first) e n.world (seat e first) ∧
      Trail n.world (seat e first) (n :: second) after := by
  generalize listed : first ++ n :: second = moments at trail
  induction trail generalizing first with
  | rest => exact absurd listed (by simp)
  | @step w mid after e m later idle put tail ih =>
    cases first with
    | nil =>
      cases listed
      exact ⟨idle, .step (.same _ e) put tail⟩
    | cons m' earlier =>
      cases listed
      obtain ⟨led, goes_on⟩ := ih rfl
      exact ⟨(idle.trans put).trans led, goes_on⟩

end Trail

def Trails {β : Type} (w : World H) (e : EnvironmentId) (moments : List (Moment H))
    (outcome : Option (β × World H)) : Prop :=
  ∃ last, Trail w e moments last ∧ ∀ a after, outcome = some (a, after) → last = after

theorem run_trails
    (each : ∀ r (w : World H) e, Trails w e (⟨r, w⟩ :: nested B fuel r w) (respond B fuel r w))
    (m : Act H α) (w : World H) (e : EnvironmentId) :
    Trails w e (m.history B fuel w) (m.run (respond B fuel) w) := by
  induction m generalizing w e with
  | done b => exact ⟨w, .rest (.same w e), fun a after ran => by cases ran; rfl⟩
  | ask r next ih =>
    obtain ⟨mid, begun, ended⟩ := each r w e
    rw [history_ask, Act.run]
    cases answered : respond B fuel r w with
    | none => exact ⟨mid, by simpa using begun, fun _ _ ran => by cases ran⟩
    | some p =>
      obtain rfl : mid = p.2 := ended p.1 p.2 answered
      obtain ⟨last, trail, reached⟩ := ih p.1 p.2 (seat e (⟨r, w⟩ :: nested B fuel r w))
      exact ⟨last, begun.append trail, reached⟩

theorem idle_unless_access {r : Request H} (other : ∀ a, r ≠ .access a) (w : World H)
    (e : EnvironmentId) :
    w.Appends ((⟨r, w⟩ : Moment H).registers? e).toList e w ((⟨r, w⟩ : Moment H).seat e) := by
  cases r with
  | access access => exact absurd rfl (other access)
  | _ => exact .same w e

theorem trails_at_once {r : Request H} (at_once : r.body? B w = none) (e : EnvironmentId) :
    Trails w e (⟨r, w⟩ :: nested B fuel r w) (respond B fuel r w) := by
  rw [nested_at_once at_once]
  cases answered : respond B fuel r w with
  | some p =>
    have put := appends_at_once at_once answered e
    refine ⟨p.2, .step (.same w e) put (.rest (.same _ _)), ?_⟩
    intro a after same
    cases same
    rfl
  | none =>
    have other : ∀ a, r ≠ .access a := by
      rintro access rfl
      rw [respond_access] at answered
      cases answered
    exact ⟨w, .step (.same w e) (idle_unless_access other w e) (.rest (.same _ _)), nofun⟩

/-- By induction on the fuel: the moments of what answers a request come behind its own. -/
theorem respond_trails (fuel : Nat) (r : Request H) (w : World H) (e : EnvironmentId) :
    Trails w e (⟨r, w⟩ :: nested B fuel r w) (respond B fuel r w) := by
  induction fuel generalizing r w e with
  | zero =>
    cases r with
    | access access => exact trails_at_once rfl e
    | _ => exact ⟨w, .step (.same w e) (.same w e) (.rest (.same w e)), nofun⟩
  | succ fuel ih =>
    cases runs : r.body? B w with
    | none => exact trails_at_once runs e
    | some body =>
      have other : ∀ a, r ≠ .access a := by
        rintro access rfl
        cases runs
      have put := idle_unless_access other w e
      obtain ⟨mid, trail, reached⟩ := run_trails ih body w ((⟨r, w⟩ : Moment H).seat e)
      rw [nested_body runs, respond_body runs]
      cases ran : body.run (respond B fuel) w with
      | none => exact ⟨mid, .step (.same w e) put trail, nofun⟩
      | some p =>
        obtain rfl : mid = p.2 := reached p.1 p.2 ran
        have settled := trail.append (.rest (settle_appends p.1 p.2 _))
        rw [List.append_nil] at settled
        refine ⟨_, .step (.same w e) put settled, fun a after same => ?_⟩
        cases same
        rfl

theorem nodup_eraseDups (xs : List Nat) : xs.eraseDups.Nodup := by
  induction counted : xs.length using Nat.strong_induction_on generalizing xs with
  | _ n ih =>
    cases xs with
    | nil => exact List.nodup_nil
    | cons x xs =>
      have shorter : (xs.filter fun y => !y == x).length < n := by
        rw [← counted]
        exact Nat.lt_succ_of_le (List.length_filter_le ..)
      rw [List.eraseDups_cons, List.nodup_cons]
      exact ⟨by simp, ih _ shorter _ rfl⟩

namespace Environment
variable (E : Environment H) (label : Nat → String)

theorem ruleCount_eq_count (i : Nat) :
    E.ruleCount ⟨i, label i⟩ = (E.rules.map (·.key.index)).count i := by
  rw [ruleCount, rulesFor, ← List.countP_eq_length_filter, List.count, List.countP_map]
  rfl

theorem mem_derivedKeys {i : Nat} :
    i ∈ E.derivedKeys ↔ E.ruleCount ⟨i, label i⟩ ≠ 0 := by
  rw [ruleCount_eq_count, derivedKeys, List.mem_eraseDups, ← List.count_pos_iff,
    Nat.pos_iff_ne_zero]

theorem totalRules_eq_finsum (counted : E.Counted) :
    E.totalRules = ∑ᶠ i, E.ruleCount ⟨i, label i⟩ := by
  have together := List.sum_toFinset_count_eq_length (E.rules.map (·.key.index))
  rw [List.length_map] at together
  simp only [ruleCount_eq_count]
  rw [totalRules, counted, ← together]
  refine (finsum_eq_sum_of_support_subset _ fun i counts => ?_).symm
  rw [Function.mem_support, ← Nat.pos_iff_ne_zero, List.count_pos_iff] at counts
  exact List.mem_toFinset.mpr counts

theorem derivedKeys_length :
    E.derivedKeys.length = {i | E.ruleCount ⟨i, label i⟩ ≠ 0}.ncard := by
  have same : {i | E.ruleCount ⟨i, label i⟩ ≠ 0} = (E.derivedKeys.toFinset : Set Nat) := by
    ext i
    rw [Set.mem_ofPred_eq, ← mem_derivedKeys, Finset.mem_coe, List.mem_toFinset]
  rw [same, Set.ncard_coe_finset, List.toFinset_card_of_nodup]
  exact nodup_eraseDups _

/-- The counts agree, and the description shows them. Labels do not matter for what is counted. -/
structure Tallies : Prop where
  total : E.totalRules = ∑ᶠ i, E.ruleCount ⟨i, label i⟩
  shown : E.describe = "Environment \x7b conformances: " ++ toString
    (∑ᶠ i, E.ruleCount ⟨i, label i⟩)
    ++ ", derived_traits: " ++ toString {i | E.ruleCount ⟨i, label i⟩ ≠ 0}.ncard
    ++ ", state_slots: " ++ toString E.stateSlots ++ " \x7d"

theorem tallies (counted : E.Counted) : E.Tallies label where
  total := E.totalRules_eq_finsum label counted
  shown := by
    rw [describe_eq, ← derivedKeys_length, ← E.totalRules_eq_finsum label counted]

/-- For every key the rules given come behind those that were there, in their order, and every one
    of them counts. -/
structure TakesIn (E : Environment H) (rules : List (Rule H)) (E' : Environment H) : Prop where
  lists : ∀ key, E'.rulesFor key = E.rulesFor key ++ rules.filter (·.key == key)
  total : E'.totalRules = E.totalRules + rules.length

end Environment

theorem World.Appends.takesIn {rules : List (Rule H)} (appends : w.Appends rules e after e')
    (housed : e.index < w.environments.size) :
    (w.environment e).TakesIn rules (after.environment e') := by
  refine ⟨fun key => ?_, appends.registrations housed⟩
  rw [Environment.rulesFor, appends.rules housed, List.filter_append, Environment.rulesFor]

/-- In every run, from any moment to any later one and to the end if there is one, an environment
    takes in just what is registered in it on the way, be it in the middle of a search for the same
    key or before a failure. It is found in its place, or where it was put. If the counts agree in
    all environments to begin with, as they do in empty ones, they agree all the time. -/
theorem rules_accumulate (B : Behaviour H) (main : Act H α) (w : World H) (fuel : Nat) :
    (∀ e before m mid n rest, main.history B fuel w = before ++ m :: (mid ++ n :: rest) →
      e.index < m.world.environments.size →
        (m.world.environment e).TakesIn (registered e (m :: mid))
          (n.world.environment (seat e (m :: mid)))) ∧
    (∀ e before m rest a after, main.history B fuel w = before ++ m :: rest →
      main.run (respond B fuel) w = some (a, after) → e.index < m.world.environments.size →
        (m.world.environment e).TakesIn (registered e (m :: rest))
          (after.environment (seat e (m :: rest)))) ∧
    (∀ e moments, (∀ n ∈ moments, Moment.seat (H := H) n e = e) → seat e moments = e) ∧
    ((∀ e, (w.environment e).Counted) → ∀ label,
      (∀ n ∈ main.history B fuel w, ∀ e, (n.world.environment e).Tallies label) ∧
        ∀ a after, main.run (respond B fuel) w = some (a, after) →
          ∀ e, (after.environment e).Tallies label) := by
  have goes_on : ∀ e before m rest, main.history B fuel w = before ++ m :: rest →
      Trails m.world e (m :: rest) (main.run (respond B fuel) w) := by
    intro e before m rest listed
    obtain ⟨origin, rfl⟩ := seat_surjective before e
    obtain ⟨last, trail, reached⟩ := run_trails (respond_trails fuel) main w origin
    rw [listed] at trail
    exact ⟨last, trail.divide.2, reached⟩
  refine ⟨fun e before m mid n rest listed housed =>
    ?_, fun e before m rest a after listed ran housed => ?_,
    fun e moments => seat_of_still, fun counted label =>
      ⟨fun n put e => ?_, fun a after ran e => ?_⟩⟩
  · obtain ⟨last, trail, -⟩ := goes_on e before m _ listed
    rw [← List.cons_append] at trail
    exact trail.divide.1.takesIn housed
  · obtain ⟨last, trail, reached⟩ := goes_on e before m rest listed
    obtain rfl := reached a after ran
    exact trail.whole.takesIn housed
  · exact Environment.tallies _ label (counted_enduring.history put counted e)
  · exact Environment.tallies _ label (counted_enduring.run ran counted e)

def proliferating : Behaviour Host.unit :=
  { inert with
    infer := fun _ _ => ⟨Unit, ⟨fun _ ctx => do
      Program.access (.register ctx.environment (.own .text Key.text ()))
      return none⟩, fun _ _ => throw (.of (.custom ""))⟩ }

def tendedWorld : World Host.unit :=
  { World.initial () with
    cells := #[⟨.bare none, []⟩]
    environments := #[{ rules := [.own .text Key.text ()] }] }

/-- Asks for a text, puts a new environment in the place of the first, and looks at the first. -/
def askAndMove : Act Host.unit Unit := do
  let _ ← Act.request (.resolve ⟨0⟩ Key.text.id ⟨⟨0⟩, .fresh⟩)
  let fresh ← Act.access .addEnvironment
  Act.access (.exchange ⟨0⟩ fresh)
  let _ ← Act.access (.environment fresh)

theorem rule_registered_amid_search :
    ∃ m mid n, askAndMove.history proliferating 3 tendedWorld = [] ++ m :: (mid ++ n :: []) ∧
      0 < m.world.environments.size ∧ (∀ e, (tendedWorld.environment e).Counted) ∧
      seat ⟨0⟩ (m :: mid) = ⟨1⟩ ∧
      (m.world.environment ⟨0⟩).TakesIn [.own .text Key.text ()] (n.world.environment ⟨1⟩) ∧
      ((n.world.environment ⟨1⟩).rulesFor Key.text.id).length = 2 ∧
      (n.world.environment ⟨1⟩).Tallies fun _ => "" := by
  have general := rules_accumulate proliferating askAndMove tendedWorld 3
  have counted : ∀ e, (tendedWorld.environment e).Counted := by
    rintro ⟨_ | i⟩ <;> rfl
  have listed : askAndMove.history proliferating 3 tendedWorld =
      [] ++ ⟨.resolve ⟨0⟩ Key.text.id ⟨⟨0⟩, .fresh⟩, tendedWorld⟩ ::
        ([⟨.access (.register ⟨0⟩ _), _⟩, ⟨.access .addEnvironment, _⟩,
          ⟨.access (.exchange ⟨0⟩ ⟨1⟩), _⟩] ++ ⟨.access (.environment ⟨1⟩), _⟩ :: []) := rfl
  have tallies := (general.2.2.2 counted fun _ => "").1 _
    (.tail _ (.tail _ (.tail _ (.tail _ (.head _))))) ⟨1⟩
  exact ⟨_, _, _, listed, by decide, counted, rfl, general.1 ⟨0⟩ [] _ _ _ [] listed (by decide),
    rfl, tallies⟩

end TraitDispatch
