import TraitDispatch.Proofs.Appearance

/- Rendering in the middle of other derivations. Most of what the rules for renderings ask for is
   given by no rule, and so is never in progress where there are only the standard rules. That a
   macro is a function is given by one. It may be in progress already; the last rule for renderings
   fails then, but only where there was nothing left to find. -/
namespace TraitDispatch
variable {H : Host} {α β : Type} {B : Behaviour H} {w after : World H} {u v : Value} {ctx : Context}
  {shown : Value → String} {k : Kind}

open World

/-- The program ends with what there is to say. If there is nothing, it may fail as well, but not
    without the given reason. -/
def Program.SucceedsUnless (B : Behaviour H) (R : World H → World H → Prop) (reason : Prop)
    (m : Program H (Option α)) (w : World H) (x : Option α) : Prop :=
  ∃ r after, m.Ends B w r after ∧ R w after ∧
    (r = .ok x ∨ reason ∧ x = none ∧ ∃ failure, r = .error failure)

section Telling
variable {R : World H → World H → Prop} {reason : Prop}

theorem Program.Succeeds.succeedsUnless {m : Program H (Option α)} {x : Option α}
    (succeeds : m.Succeeds B R w fun a _ => a = x) : m.SucceedsUnless B R reason w x := by
  obtain ⟨a, after, ends, grown, same⟩ := succeeds
  exact ⟨.ok a, after, ends, grown, .inl (congrArg _ same)⟩

theorem Program.SucceedsUnless.succeeds {m : Program H (Option α)} {x : Option α}
    (tells : m.SucceedsUnless B R reason w x)
    (without : ¬ reason) : m.Succeeds B R w fun a _ => a = x := by
  obtain ⟨r, after, ends, grown, told⟩ := tells
  rcases told with rfl | ⟨because, -⟩
  · exact ⟨x, after, ends, grown, rfl⟩
  · exact absurd because without

theorem Program.SucceedsUnless.imp {other : Prop} {m : Program H (Option α)} {x : Option α}
    (tells : m.SucceedsUnless B R reason w x) (implies : reason → other) :
    m.SucceedsUnless B R other w x := by
  obtain ⟨r, after, ends, grown, told⟩ := tells
  exact ⟨r, after, ends, grown, told.imp_right fun found => ⟨implies found.1, found.2⟩⟩

theorem answer?_succeedsUnless {key : Key k} {x : Option (Payload H)}
    (typed : ∀ p, x = some p → p.kind = k)
    (resolved : (Program.resolve v key.id ctx).SucceedsUnless B R reason w x) :
    (v.answer? key ctx).SucceedsUnless B R reason w (x.bind (·.as? k)) := by
  obtain ⟨r, after, ends, grown, told⟩ := resolved
  rcases told with rfl | ⟨because, rfl, failure, rfl⟩
  · refine ⟨.ok (x.bind (·.as? k)), after, .bind ends ?_, grown, .inl rfl⟩
    cases x with
    | none => exact .done _ after
    | some p =>
      obtain ⟨j, content⟩ := p
      obtain rfl : j = k := typed _ rfl
      simp only [Option.bind_some, Payload.as?_self]
      exact .done _ after
  · exact ⟨_, after, .bind_failed ends, grown, .inr ⟨because, rfl, failure, rfl⟩⟩

variable [World.Growth R]

theorem Program.Succeeds.then_succeedsUnless {m : Program H β} {f : β → Program H (Option α)}
    {x : Option α} {p : β → World H → Prop} (first : m.Succeeds B R w p)
    (rest : ∀ b w', R w w' → p b w' → (f b).SucceedsUnless B R reason w' x) :
    (m >>= f).SucceedsUnless B R reason w x := by
  obtain ⟨b, mid, ends, grown, holds⟩ := first
  obtain ⟨r, after, ends', grown', told⟩ := rest b mid grown holds
  exact ⟨r, after, .bind ends ends', World.Growth.trans grown grown', told⟩

theorem Program.SucceedsUnless.bind {m : Program H (Option β)} {f : Option β → Program H (Option α)}
    {x : Option β} {g : β → α} (first : m.SucceedsUnless B R reason w x)
    (rest : ∀ w', (f x).Succeeds B R w' fun a _ => a = x.map g) :
    (m >>= f).SucceedsUnless B R reason w (x.map g) := by
  obtain ⟨r, mid, ends, grown, told⟩ := first
  rcases told with rfl | ⟨because, rfl, failure, rfl⟩
  · obtain ⟨a, after, ends', grown', same⟩ := rest mid
    exact ⟨_, after, .bind ends ends', World.Growth.trans grown grown', .inl (congrArg _ same)⟩
  · exact ⟨_, mid, .bind_failed ends, grown, .inr ⟨because, rfl, failure, rfl⟩⟩

theorem applyFirst_succeedsUnless {reads : StandardRule → Option (Payload H)}
    (rules : List StandardRule) {last : StandardRule}
    (each : ∀ r ∈ rules, ∀ w', R w w' →
      (r.inference.apply v ctx).Succeeds B R w' fun a _ => a = reads r)
    (final : rules.findSome? reads = none → ∀ w', R w w' →
      (last.inference.apply v ctx).SucceedsUnless B R reason w' (reads last)) :
    (applyFirst B v ctx ((rules ++ [last]).map .standard)).SucceedsUnless B R reason w
      ((rules ++ [last]).findSome? reads) := by
  induction rules generalizing w with
  | nil =>
    have told : (applyFirst B v ctx [.standard last]).SucceedsUnless B R reason w
        ((reads last).map id) := by
      refine (final rfl w (World.Growth.same w)).bind fun w' => ?_
      cases reads last <;> exact .done rfl
    rw [Option.map_id_fun, id] at told
    rw [List.nil_append, List.findSome?_singleton]
    exact told
  | cons rule rest ih =>
    have here := each rule (List.mem_cons_self ..) w (World.Growth.same w)
    cases found : reads rule with
    | none =>
      rw [List.cons_append, List.findSome?_cons_of_isNone (by simp [found])]
      refine here.then_succeedsUnless fun a w' grown same => ?_
      rw [same, found]
      refine ih (fun r member w'' grown' =>
        each r (List.mem_cons_of_mem _ member) w'' (World.Growth.trans grown grown'))
          fun none w'' grown' =>
        final ?_ w'' (World.Growth.trans grown grown')
      rw [List.findSome?_cons_of_isNone (by simp [found]), none]
    | some answer =>
      rw [List.cons_append, List.findSome?_cons, found]
      refine (applyFirst_accepts (here.weaken fun a w' _ same => ?_)).succeedsUnless
      rw [same, found]
      exact ⟨rfl, rfl⟩

theorem direct_succeedsUnless {j : Kind} {key : Key j} {f : j.Carrier H → k.Carrier H}
    {source : Option (j.Carrier H)}
    (asked : (v.answer? key ctx).SucceedsUnless B R reason w source) :
    ((Inference.direct key f).apply v ctx).SucceedsUnless B R reason w
      (source.map fun x => ⟨k, f x⟩) := by
  refine asked.bind fun w' => ?_
  cases source with
  | none => exact .done rfl
  | some x => exact .after_pure (.done rfl)

end Telling

theorem format_succeedsUnless {R : World H → World H → Prop} {reason : Prop}
    {x : Option (Payload H)}
    (resolved : (Program.resolve v Key.text.id ctx.withoutRecording).SucceedsUnless B R reason
      w x) :
    (v.format ctx).Succeeds B R w fun s _ => s = shownBy x := by
  obtain ⟨r, after, ends, grown, told⟩ := resolved
  rcases told with rfl | ⟨-, rfl, failure, rfl⟩
  · exact format_succeeds ⟨x, after, ends, grown, rfl⟩
  · have failed : (v.answer? Key.text ctx.withoutRecording).Ends B w (.error failure) after :=
      .bind_failed ends
    exact ⟨placeholder, after, .bind failed (.done _ after), grown, rfl⟩

theorem derive_busy {s : CallStack} {key : KeyId} (busy : ⟨v, key.index⟩ ∈ s.active) :
    ∃ failure, s.derive v key = .error failure :=
  ⟨_, if_pos (CallStack.isActive_iff.mpr busy)⟩

def World.Hinders (w : World H) (d : Derivation) : Prop :=
  d.key ∈ formKeys ∨ d.key = Key.function.id.index ∧ (w.node d.value).own? Key.function.id ≠ none

/-- Nothing is in progress that the rendering of the value asks for, be it of the value or of one
    that it holds. -/
structure CallStack.Eased (w : World H) (s : CallStack) (v : Value) : Prop where
  unlimited : s.limit = none
  free : ∀ d ∈ s.active, Relation.ReflTransGen w.Part d.value v →
    d.key ≠ Key.text.id.index ∧ ¬ w.Hinders d

structure CallStack.Bides (w : World H) (s : CallStack) (v : Value) (key : KeyId) : Prop where
  unlimited : s.limit = none
  free : ∀ d ∈ s.active, d.value = v → ¬ w.Hinders d
  text : key.index = Key.text.id.index → s.Eased w v

namespace CallStack.Bides
variable {s : CallStack} {key : KeyId}

theorem idle (bides : s.Bides w v key) {j : Nat} (form : j ∈ formKeys) : ⟨v, j⟩ ∉ s.active :=
  fun busy => bides.free _ busy rfl (.inl form)

theorem own (bides : s.Bides w v key) (busy : ⟨v, Key.function.id.index⟩ ∈ s.active) :
    (w.node v).own? Key.function.id = none := by
  by_contra own
  exact bides.free _ busy rfl (.inr ⟨rfl, own⟩)

end CallStack.Bides

namespace CallStack.Eased
variable {s inner : CallStack} {t : String}

theorem bides (eased : s.Eased w v) (key : KeyId) : s.Bides w v key where
  unlimited := eased.unlimited
  free := by
    rintro d busy rfl
    exact (eased.free d busy .refl).2
  text _ := eased

theorem text (eased : s.Eased w v) : ⟨v, Key.text.id.index⟩ ∉ s.active :=
  fun busy => (eased.free _ busy .refl).1 rfl

theorem part (eased : s.Eased w v) (appears : w.Appears v t) (part : w.Part u v)
    (unlimited : inner.limit = none)
    (listed : inner.active = ⟨v, Key.text.id.index⟩ :: s.active) : inner.Eased w u := by
  refine ⟨unlimited, fun d member inside => ?_⟩
  rw [listed] at member
  rcases List.mem_cons.mp member with rfl | above
  · exact absurd (.tail' inside part) appears.acyclic
  · exact eased.free d above (inside.tail part)

end CallStack.Eased

theorem World.Appears.inside {t : String} (appears : w.Appears v t) (grown : w.KeepsLooks after)
    (inside : Relation.ReflTransGen after.Part u v) :
    Relation.ReflTransGen w.Part u v ∧ ∃ s, w.Appears u s := by
  induction inside using Relation.ReflTransGen.head_induction_on with
  | refl => exact ⟨.refl, t, appears⟩
  | head part _ ih =>
    obtain ⟨inside, s, here⟩ := ih
    cases here with
    | intro shown made fixed recalls each =>
      rw [Part, grown.node _ made] at part
      exact ⟨.head part inside, _, each _ part⟩

theorem CallStack.Eased.grown {s : CallStack} {t : String} (eased : s.Eased w v)
    (appears : w.Appears v t) (grown : w.KeepsLooks after) : s.Eased after v := by
  refine ⟨eased.unlimited, fun d member inside => ?_⟩
  obtain ⟨inside', look, here⟩ := appears.inside grown inside
  rw [World.Hinders, grown.node _ here.settled.made]
  exact eased.free d member inside'

section Searching
variable {R : World H → World H → Prop} [World.Growth R]

theorem function_succeedsUnless (settled : w.Settled v) (standard : w.Standard ctx.environment)
    (unlimited : ctx.stack.limit = none)
    (idle : ∀ j ∈ formKeys, ⟨v, j⟩ ∉ ctx.stack.active)
    (own : ⟨v, Key.function.id.index⟩ ∈ ctx.stack.active →
      (w.node v).own? Key.function.id = none)
    (plain : (w.node v).form? Key.definition = none) :
    (v.answer? Key.function ctx).SucceedsUnless B R (⟨v, Key.function.id.index⟩ ∈ ctx.stack.active)
      w ((w.node v).answer? Key.function) := by
  have regular : Key.function.Regular := ⟨rfl, by decide⟩
  have certain := settled.certain regular.id
  refine answer?_succeedsUnless (fun p found => standard?_typed certain.fixed regular found) ?_
  by_cases busy : ⟨v, Key.function.id.index⟩ ∈ ctx.stack.active
  · cases memo : w.remembered v Key.function.id with
    | some answer =>
      have right := certain.recalls answer memo
      exact ⟨_, w, .resolve (.remembered memo ctx), World.Growth.same w, .inl (by rw [right])⟩
    | none =>
      obtain ⟨failure, refused⟩ := derive_busy busy
      refine ⟨_, w, .resolve (.refused memo refused), World.Growth.same w,
        .inr ⟨busy, ?_, failure, rfl⟩⟩
      rw [standard?_function plain, own busy]
  · refine (resolve_succeeds certain standard regular.id unlimited busy
      fun inner unlimited' listed => ?_).succeedsUnless
    refine applyFirst_reads _ fun rule member w' grown => ?_
    obtain rfl : rule = .definitionFunction := List.mem_singleton.mp member
    have idle' : ⟨v, Key.definition.id.index⟩ ∉ inner.active := by
      rw [listed]
      intro busy
      rcases List.mem_cons.mp busy with here | above
      · cases here
      · exact idle _ (by decide) above
    have definition : w.Certain v Key.definition.id := settled.certain (by decide)
    have standard' : w'.Standard (ctx.withStack inner).environment :=
      World.Growth.standard grown standard
    rw [← World.Growth.node grown settled.made]
    exact direct_succeeds (base_succeeds
      (World.Growth.certain grown definition (by decide)) standard' ⟨rfl, by decide⟩ rfl
        unlimited' idle')

theorem search_succeedsUnless (settled : w.Settled v) (standard : w.Standard ctx.environment)
    (unlimited : ctx.stack.limit = none)
    (idle : ∀ j ∈ formKeys, ⟨v, j⟩ ∉ ctx.stack.active)
    (own : ⟨v, Key.function.id.index⟩ ∈ ctx.stack.active →
      (w.node v).own? Key.function.id = none)
    (formats : ∀ u ∈ (w.node v).parts, ∀ w', R w w' →
      (u.format ctx).Succeeds B R w' fun s _ => s = shown u) :
    (applyFirst B v ctx ((StandardRule.forKey Key.text.id).map .standard)).SucceedsUnless B R
      (⟨v, Key.function.id.index⟩ ∈ ctx.stack.active) w
      ((StandardRule.forKey Key.text.id).findSome? (·.states (w.node v) shown)) := by
  have rules : StandardRule.forKey Key.text.id = [.blockText, .listText, .nameText, .numberText,
      .quotedText, .definitionText] ++ [.functionText] := rfl
  rw [rules]
  refine applyFirst_succeedsUnless _ (fun rule member w' grown => ?_) fun none w' grown => ?_
  · have made := World.Growth.made grown settled.made
    have node := World.Growth.node grown settled.made
    have bare : StandardRule.forKey rule.source.id = [] ∧ rule.source.id.index ∈ formKeys ∧
        rule.kind = .text := by
      simp only [List.mem_cons, List.not_mem_nil, or_false] at member
      rcases member with rfl | rfl | rfl | rfl | rfl | rfl <;> exact ⟨rfl, by decide, rfl⟩
    obtain ⟨bare, form, text⟩ := bare
    have certain := World.Growth.certain grown (settled.certain rule.source_regular.id)
      rule.source_regular.id
    have asked : (v.answer? rule.source ctx).Succeeds B R w' fun a _ =>
        a = (w.node v).answer? rule.source := by
      rw [answer?_base _ bare, ← node]
      exact base_succeeds certain (World.Growth.standard grown standard) rule.source_regular bare
        unlimited (idle _ form)
    rw [StandardRule.states_text text]
    exact text_rule_succeeds text made node asked fun u part w'' grown' =>
      formats u part w'' (World.Growth.trans grown grown')
  · have silent := List.findSome?_eq_none_iff.mp none .definitionText (by simp)
    have plain : (w.node v).form? Key.definition = Option.none := by
      rw [← answer?_base Key.definition rfl]
      rw [StandardRule.states_text rfl, Option.map_eq_none_iff] at silent
      exact Option.map_eq_none_iff.mp silent
    have node := World.Growth.node grown settled.made
    rw [← node] at own plain ⊢
    have told := direct_succeedsUnless (R := R) (k := .text)
      (f := fun _ => ⟨"<function>", Option.none⟩)
      (function_succeedsUnless (B := B) (World.Growth.settled grown settled)
        (World.Growth.standard grown standard)
        unlimited idle own plain)
    rw [StandardRule.states_text rfl, StandardRule.shows, Option.map_map]
    exact told

end Searching

class World.Gains (R : World H → World H → Prop) : Prop extends World.Growth R where
  keepsLooks : ∀ {w after}, R w after → w.KeepsLooks after
  remembers : ∀ {w v key answer}, w.KeepsLooks (w.remember v key answer) →
    R w (w.remember v key answer)

instance : World.Gains (World.KeepsLooks (H := H)) := ⟨id, id⟩

section Rendering
variable {inner : CallStack} {t : String} {R : World H → World H → Prop} [World.Gains R]

theorem text_search_succeedsUnless (appears : w.Appears v t)
    (each : ∀ u ∈ (w.node v).parts, w.Appears u (shown u)) (standard : w.Standard ctx.environment)
    (eased : ctx.stack.Eased w v) (unlimited : inner.limit = none)
    (listed : inner.active = ⟨v, Key.text.id.index⟩ :: ctx.stack.active)
    (formats : ∀ u ∈ (w.node v).parts, ∀ w', R w w' → inner.Eased w' u →
      (u.format (ctx.withStack inner)).Succeeds B R w' fun s _ => s = shown u) :
    (applyFirst B v (ctx.withStack inner)
      ((StandardRule.forKey Key.text.id).map .standard)).SucceedsUnless B R
        (⟨v, Key.function.id.index⟩ ∈ ctx.stack.active) w
        ((StandardRule.forKey Key.text.id).findSome? (·.states (w.node v) shown)) := by
  have above : ∀ j, Key.text.id.index ≠ j → ⟨v, j⟩ ∈ inner.active → ⟨v, j⟩ ∈ ctx.stack.active := by
    intro j apart busy
    rw [listed] at busy
    rcases List.mem_cons.mp busy with here | above
    · injection here with _ index
      exact absurd index.symm apart
    · exact above
  have standard' : w.Standard (ctx.withStack inner).environment := standard
  have bides : ctx.stack.Bides w v Key.text.id := eased.bides _
  refine (search_succeedsUnless appears.settled standard' unlimited (fun j form busy => ?_)
    (fun busy => ?_) fun u part w' grown => ?_).imp (above _ (by decide))
  · exact bides.idle form (above j (StandardRule.blockText.apart_of_form form) busy)
  · exact bides.own (above _ (by decide) busy)
  · exact formats u part w' grown
      ((eased.part appears part unlimited listed).grown (each u part)
        (World.Gains.keepsLooks grown))

theorem other_search_succeedsUnless {reason : Prop} {key : KeyId} (appears : w.Appears v t)
    (standard : w.Standard ctx.environment) (bides : ctx.stack.Bides w v key)
    (other : key.index ≠ Key.text.id.index) (unlimited : inner.limit = none)
    (listed : inner.active = ⟨v, key.index⟩ :: ctx.stack.active) :
    (applyFirst B v (ctx.withStack inner) ((StandardRule.forKey key).map .standard)).SucceedsUnless
      B R reason w ((StandardRule.forKey key).findSome? (·.states (w.node v) shown)) := by
  have settled := appears.settled
  have standard' : w.Standard (ctx.withStack inner).environment := standard
  refine (applyFirst_reads _ fun rule member w' grown => ?_).succeedsUnless
  have same : rule.key.id.index = key.index :=
    KeyId.beq_iff_index_eq.mp (List.mem_filter.mp member).2
  have silent : rule.kind ≠ .text := by
    intro kind
    rw [← same, rule.text_of_kind kind] at other
    exact other rfl
  rw [StandardRule.states_other silent, ← (World.Gains.keepsLooks grown).node v settled.made]
  refine rule_succeeds (World.Growth.settled grown settled) (World.Growth.standard grown standard')
    silent unlimited fun j form busy => ?_
  rw [Context.withStack, listed] at busy
  rcases List.mem_cons.mp busy with here | above
  · injection here with _ index
    exact rule.apart_of_form form (same.trans index.symm)
  · exact bides.idle form above

theorem resolve_succeedsUnless {key : KeyId} (appears : w.Appears v t)
    (each : ∀ u ∈ (w.node v).parts, w.Appears u (shown u)) (standard : w.Standard ctx.environment)
    (bides : ctx.stack.Bides w v key) (idle : ⟨v, key.index⟩ ∉ ctx.stack.active)
    (formats : ∀ inner : Context, inner.environment = ctx.environment →
      ∀ u ∈ (w.node v).parts, ∀ w', R w w' → inner.stack.Eased w' u →
        (u.format inner).Succeeds B R w' fun s _ => s = shown u) :
    (Program.resolve v key ctx).SucceedsUnless B R (⟨v, Key.function.id.index⟩ ∈ ctx.stack.active) w
      ((w.node v).states shown key) := by
  have made := appears.settled.made
  have fixed := appears.settled.fixed
  cases memo : w.remembered v key with
  | some answer =>
    refine ⟨_, w, .resolve (.remembered memo ctx), World.Growth.same w, .inl ?_⟩
    rw [appears.recalls each key answer memo]
  | none =>
    obtain ⟨inner, admitted, unlimited, listed⟩ := derive_unlimited bides.unlimited idle
    have standard' : w.Standard (ctx.withStack inner).environment := standard
    have search : (applyFirst B v (ctx.withStack inner)
        ((StandardRule.forKey key).map .standard)).SucceedsUnless B R
          (⟨v, Key.function.id.index⟩ ∈ ctx.stack.active) w
          ((StandardRule.forKey key).findSome? (·.states (w.node v) shown)) := by
      -- Only the search for a text asks anything of other values.
      by_cases text : key.index = Key.text.id.index
      · have eased := bides.text text
        have rules : StandardRule.forKey key = StandardRule.forKey Key.text.id := by
          simp only [StandardRule.forKey, KeyId.beq_congr text]
        rw [text] at listed
        rw [rules]
        exact text_search_succeedsUnless appears each standard eased unlimited
          listed fun u part w' =>
          formats (ctx.withStack inner) rfl u part w'
      · exact other_search_succeedsUnless appears standard bides text unlimited listed
    have derived : (deriveAnswer B w v key (ctx.withStack inner)).SucceedsUnless B R
        (⟨v, Key.function.id.index⟩ ∈ ctx.stack.active) w ((w.node v).states shown key) := by
      cases own : (w.node v).own? key with
      | some answer =>
        refine (deriveAnswer_succeeds fixed standard' (fun a here => ?_) fun none =>
          ?_).succeedsUnless
        · rw [Node.states, here, Option.some_or]
        · rw [none] at own
          cases own
      | none =>
        rw [deriveAnswer_ruled (Node.lacks_of_own fixed own) _ standard', Node.states, own,
          Option.none_or]
        exact search
    obtain ⟨r, after, ends, grown, told⟩ := derived
    have settles := Program.Ends.resolve (.derived memo admitted ends)
    rcases told with rfl | ⟨because, nothing, failure, rfl⟩
    · refine ⟨_, _, settles, ?_, .inl rfl⟩
      cases said : (w.node v).states shown key with
      | none => exact grown
      | some answer =>
        have right := (World.Gains.keepsLooks grown).remember_stated made each said
        exact World.Growth.trans grown (World.Gains.remembers right)
    · exact ⟨_, _, settles, grown, .inr ⟨because, nothing, failure, rfl⟩⟩

/-- A value is rendered as it looks, whatever else is in progress. -/
theorem format_amidst {s : String} (appears : w.Appears v s) {w' : World H} (grown : R w w')
    (standard : w'.Standard ctx.environment) (eased : ctx.stack.Eased w' v) :
    (v.format ctx).Succeeds B R w' fun t _ => t = s := by
  induction appears generalizing w' ctx with
  | @intro v shown made fixed recalls each ih =>
    have keepsLooks := World.Gains.keepsLooks grown
    have later := keepsLooks.appears v _ (.intro shown made fixed recalls each)
    have node := keepsLooks.node v made
    have parts : ∀ u ∈ (w'.node v).parts, w'.Appears u (shown u) := by
      rw [node]
      exact fun u part => keepsLooks.appears u _ (each u part)
    have eased' : ctx.withoutRecording.stack.Eased w' v := ⟨eased.unlimited, eased.free⟩
    have resolved : (Program.resolve v Key.text.id ctx.withoutRecording).SucceedsUnless B R
        (⟨v, Key.function.id.index⟩ ∈ ctx.stack.active) w'
          ((w'.node v).states shown Key.text.id) := by
      refine resolve_succeedsUnless later parts standard (eased'.bides _) eased'.text
        fun inner same u part w'' grown' eased'' => ?_
      rw [node] at part
      refine ih u part (World.Growth.trans grown grown') ?_ eased''
      rw [same]
      exact World.Growth.standard grown' standard
    have formatted := format_succeedsUnless resolved
    rw [node] at formatted
    exact formatted

/-- Whatever is asked for that is not in progress, the value says what its node states. -/
theorem resolve_amidst {key : KeyId} (appears : w.Appears v t)
    (standard : w.Standard ctx.environment) (bides : ctx.stack.Bides w v key)
    (idle : ⟨v, key.index⟩ ∉ ctx.stack.active) :
    ∃ shown, (∀ u ∈ (w.node v).parts, w.Appears u (shown u)) ∧
      (Program.resolve v key ctx).SucceedsUnless B R (⟨v, Key.function.id.index⟩ ∈ ctx.stack.active)
        w ((w.node v).states shown key) := by
  cases appears with
  | intro shown made fixed recalls each =>
    refine ⟨shown, each, resolve_succeedsUnless (.intro shown made fixed recalls each) each standard
      bides idle fun inner same u part w' grown eased => ?_⟩
    refine format_amidst (each u part) grown ?_ eased
    rw [same]
    exact World.Growth.standard grown standard

end Rendering

theorem CallStack.Open.eased {s : CallStack} (opened : s.Open) (v : Value) : s.Eased w v := by
  refine ⟨opened.unlimited, fun d member => ?_⟩
  rw [opened.idle] at member
  cases member

theorem resolve_appears {s : String} (appears : w.Appears v s) (key : KeyId)
    (standard : w.Standard ctx.environment) (opened : ctx.stack.Open) :
    ∃ shown, (∀ u ∈ (w.node v).parts, w.Appears u (shown u)) ∧
      (Program.resolve v key ctx).Succeeds B World.KeepsLooks w fun a _ =>
        a = (w.node v).states shown key := by
  have idle : ∀ d, d ∉ ctx.stack.active := by
    rw [opened.idle]
    exact fun _ => List.not_mem_nil
  obtain ⟨shown, each, tells⟩ := resolve_amidst (B := B) (R := World.KeepsLooks) appears standard
    ((opened.eased v).bides key) (idle _)
  exact ⟨shown, each, tells.succeeds (idle _)⟩

end TraitDispatch
