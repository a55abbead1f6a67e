import TraitDispatch.Decimal.Positional
import TraitDispatch.Inference
import TraitDispatch.Standard.Rendering

/- What each standard rule says. -/
namespace TraitDispatch
variable {H : Host}

def StandardRule.inference : (r : StandardRule) → Inference H r.kind
  | .blockText => .direct Key.block fun _ => ⟨"<block>", none⟩
  | .blockEvaluate => .direct Key.block .block
  | .blockExpand => .directAt Key.block .block
  | .listText => ⟨_, .conforms Key.list, fun l ctx => return ⟨← (l.render ctx).lift, none⟩⟩
  | .listEvaluate => .direct Key.list .list
  | .listExpand => .directAt Key.list .list
  | .nameEvaluate => .direct Key.name .name
  | .nameAssign => .direct Key.name .name
  | .nameExpand => .directAt Key.name .name
  | .nameText => .directAt Key.name fun n location => ⟨n.name, location⟩
  | .numberText => .direct Key.number fun n => ⟨n.text, none⟩
  | .quotedEvaluate => .direct Key.quoted fun q => .quoted q.inner
  | .quotedExpand => .directAt Key.quoted fun q location => .quoted q.inner location
  | .quotedText => ⟨_, .conforms Key.quoted, fun q ctx => return ⟨← (q.render ctx).lift, none⟩⟩
  | .definitionFunction => .direct Key.definition .application
  | .definitionText => .direct Key.definition fun _ => ⟨"<macro>", none⟩
  | .functionText => .direct Key.function fun _ => ⟨"<function>", none⟩

namespace StandardRule

def inOrder : List StandardRule :=
  [.blockText, .blockEvaluate, .blockExpand, .listText, .listEvaluate, .listExpand,
    .nameEvaluate, .nameAssign, .nameExpand, .nameText, .numberText, .quotedEvaluate,
    .quotedExpand, .quotedText, .definitionFunction, .definitionText, .functionText]

end StandardRule
end TraitDispatch
