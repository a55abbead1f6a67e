import TraitDispatch.Proofs.Resemblance

/- The same run on other handles. Values are paired one to one, and two worlds are the same along
   the pairing if paired values consist of paired values and remember such. What programs do does
   not depend on which handles they were given: from such worlds they put such requests, and come to
   such ends. -/
namespace TraitDispatch
variable {H : Host} {α α' β β' : Type} {P Q : Value → Value → Prop} {e : EnvironmentId}

def OneToOne (P : Value → Value → Prop) : Prop :=
  ∀ {v v' u u'}, P v v' → P u u' → (u = v ↔ u' = v')

section Codes
variable {κ : Type}

inductive Function.Along (P : Value → Value → Prop) : Function κ → Function κ → Prop where
  | display : Along P .display .display
  | definer : Along P .definer .definer
  | definerOf {p p' : Value} (parameter : P p p') : Along P (.definerOf p) (.definerOf p')
  | application {m m' : Macro} (parameter : P m.parameter m'.parameter)
      (body : P m.body m'.body) : Along P (.application m) (.application m')

inductive Evaluator.Along (P : Value → Value → Prop) : Evaluator κ → Evaluator κ → Prop where
  | block {b b' : Block}
      (statements : List.Forall₂ (List.Forall₂ P) b.statements b'.statements) :
      Along P (.block b) (.block b')
  | list {l l' : ListForm} (items : List.Forall₂ P l.items l'.items) : Along P (.list l) (.list l')
  | name (n : Name) : Along P (.name n) (.name n)
  | quoted {v v' : Value} (inner : P v v') : Along P (.quoted v) (.quoted v')

inductive Expander.Along (P : Value → Value → Prop) : Expander κ → Expander κ → Prop where
  | block {b b' : Block} (l : Option Location)
      (statements : List.Forall₂ (List.Forall₂ P) b.statements b'.statements) :
      Along P (.block b l) (.block b' l)
  | list {items items' : ListForm} (l : Option Location)
      (each : List.Forall₂ P items.items items'.items) : Along P (.list items l) (.list items' l)
  | name (n : Name) (l : Option Location) : Along P (.name n l) (.name n l)
  | quoted {v v' : Value} (l : Option Location) (inner : P v v') :
      Along P (.quoted v l) (.quoted v' l)

inductive Assigner.Along : Assigner κ → Assigner κ → Prop where
  | name (n : Name) : Along (.name n) (.name n)

end Codes

def Kind.Along (P : Value → Value → Prop) : (k : Kind) → k.Carrier H → k.Carrier H → Prop
  | .text => fun x y => x = y
  | .name => fun x y => x = y
  | .number => fun x y => x = y
  | .list => fun x y => List.Forall₂ P x.items y.items
  | .block => fun x y => List.Forall₂ (List.Forall₂ P) x.statements y.statements
  | .quoted => fun x y => P x.inner y.inner
  | .definition => fun x y => P x.parameter y.parameter ∧ P x.body y.body
  | .function => Function.Along P
  | .evaluator => Evaluator.Along P
  | .expander => Expander.Along P
  | .assigner => Assigner.Along
  | .own _ => fun _ _ => False

inductive Payload.Along (P : Value → Value → Prop) : Payload H → Payload H → Prop where
  | intro {k : Kind} {x y : k.Carrier H} (content : k.Along P x y) : Along P ⟨k, x⟩ ⟨k, y⟩

inductive Instance.Along (P : Value → Value → Prop) : Instance H → Instance H → Prop where
  | constant {k : Kind} (key : Key k) {x y : k.Carrier H} (content : k.Along P x y) :
      Along P (.constant key x) (.constant key y)

structure Node.Along (P : Value → Value → Prop) (n n' : Node H) : Prop where
  instances : List.Forall₂ (Instance.Along P) n.instances n'.instances
  location : n'.location = n.location

theorem Node.Along.find? {n n' : Node H} (along : n.Along P n') (key : KeyId) :
    Option.Rel (Instance.Along P) (n.find? key) (n'.find? key) := by
  have instances := along.instances
  unfold Node.find?
  generalize n.instances = is at instances
  generalize n'.instances = is' at instances
  induction instances with
  | nil => exact .none
  | cons first _ ih =>
    cases first with
    | constant other content =>
      rw [List.find?_cons, List.find?_cons]
      change Option.Rel _ (match other.id == key with | true => _ | false => _)
        (match other.id == key with | true => _ | false => _)
      cases other.id == key with
      | true => exact .some (.constant other content)
      | false => exact ih

structure CallStack.Along (P : Value → Value → Prop) (s s' : CallStack) : Prop where
  active : List.Forall₂ (fun d d' => P d.value d'.value ∧ d'.key = d.key) s.active s'.active
  recording : s'.recording = s.recording
  nesting : s'.nesting = s.nesting
  limit : s'.limit = s.limit

structure Context.Along (P : Value → Value → Prop) (e : EnvironmentId) (ctx ctx' : Context) :
    Prop where
  here : ctx.environment = e
  there : ctx'.environment = e
  stack : ctx.stack.Along P ctx'.stack

structure Environment.Along (P : Value → Value → Prop) (E E' : Environment H) : Prop where
  lookup : ∀ name, Option.Rel P (E.lookup name) (E'.lookup name)
  output : E'.output = E.output

/-- Requests for the same of paired values, and how their answers correspond. -/
inductive Request.Along (P : Value → Value → Prop) (e : EnvironmentId) :
    (r r' : Request H) → (r.Answer → r'.Answer → Prop) → Prop where
  | resolve {v v' : Value} {key : KeyId} {ctx ctx' : Context}
      (standard : key.index < standardKinds.length) (value : P v v') (placed : ctx.Along P e ctx') :
      Along P e (.resolve v key ctx) (.resolve v' key ctx')
        (Concur (Option.Rel (Payload.Along P)))
  | call {f f' : Function H.Code} {a a' : Value} {ctx ctx' : Context} (code : f.Along P f')
      (argument : P a a') (placed : ctx.Along P e ctx') :
      Along P e (.call f a ctx) (.call f' a' ctx') (Concur P)
  | evaluate {f f' : Evaluator H.Code} {ctx ctx' : Context} (code : f.Along P f')
      (placed : ctx.Along P e ctx') : Along P e (.evaluate f ctx) (.evaluate f' ctx') (Concur P)
  | expand {f f' : Expander H.Code} {p p' r r' : Value} {ctx ctx' : Context} (code : f.Along P f')
      (parameter : P p p') (replacement : P r r') (placed : ctx.Along P e ctx') :
      Along P e (.expand f p r ctx) (.expand f' p' r' ctx') (Concur P)
  | assign {f f' : Assigner H.Code} {v v' : Value} {ctx ctx' : Context} (code : f.Along f')
      (value : P v v') (placed : ctx.Along P e ctx') :
      Along P e (.assign f v ctx) (.assign f' v' ctx') (Concur fun _ _ => True)
  | create {n n' : Node H} (node : n.Along P n') :
      Along P e (.access (.create n)) (.access (.create n')) P
  | inspect {v v' : Value} (value : P v v') :
      Along P e (.access (.inspect v)) (.access (.inspect v')) (Node.Along P)
  | environment :
      Along P e (.access (.environment e)) (.access (.environment e)) (Environment.Along P)
  | define (name : String) {v v' : Value} (value : P v v') :
      Along P e (.access (.define e name v)) (.access (.define e name v')) fun _ _ => True
  | setOutput (output : Output) :
      Along P e (.access (.setOutput e output)) (.access (.setOutput e output)) fun _ _ => True
  | print (output : Output) (line : String) :
      Along P e (.access (.print output line)) (.access (.print output line)) fun _ _ => True

/-- Programs that put such requests one after the other, and come to related results as long as the
    answers correspond. -/
inductive Act.Along (P : Value → Value → Prop) (e : EnvironmentId) (R : α → β → Prop) :
    Act H α → Act H β → Prop where
  | done {a : α} {b : β} (same : R a b) : Along P e R (.done a) (.done b)
  | ask {r r' : Request H} {S : r.Answer → r'.Answer → Prop} {next : r.Answer → Act H α}
      {next' : r'.Answer → Act H β} (request : r.Along P e r' S)
      (rest : ∀ a a', S a a' → Along P e R (next a) (next' a')) :
      Along P e R (.ask r next) (.ask r' next')

def Program.Along (P : Value → Value → Prop) (e : EnvironmentId) (R : α → β → Prop)
    (m : Program H α) (m' : Program H β) : Prop := Act.Along P e (Concur R) m.run m'.run

variable {R : α → β → Prop} {S : α' → β' → Prop}

namespace Act.Along
variable {m : Act H α} {m' : Act H β}

theorem request {r r' : Request H} {S : r.Answer → r'.Answer → Prop} (along : r.Along P e r' S) :
    Act.Along P e S (Act.request r) (Act.request r') := .ask along fun _ _ same => .done same

theorem bind {f : α → Act H α'} {f' : β → Act H β'} (first : Act.Along P e R m m')
    (rest : ∀ a b, R a b → Act.Along P e S (f a) (f' b)) :
    Act.Along P e S (m >>= f) (m' >>= f') := by
  change Act.Along P e S (m.bind f) (m'.bind f')
  induction first with
  | done same => exact rest _ _ same
  | ask request _ ih => exact .ask request ih

theorem mapM {γ : Type} {T : γ → γ → Prop} {f : γ → Act H α} {f' : γ → Act H β} {xs ys : List γ}
    (same : List.Forall₂ T xs ys) (each : ∀ x y, T x y → Act.Along P e R (f x) (f' y)) :
    Act.Along P e (List.Forall₂ R) (xs.mapM f) (ys.mapM f') := by
  induction same with
  | nil => exact .done .nil
  | cons here _ ih =>
    rw [List.mapM_cons, List.mapM_cons]
    exact (each _ _ here).bind fun a b first => ih.bind fun as bs rest => .done (.cons first rest)

end Act.Along

namespace Program.Along
variable {m : Program H α} {m' : Program H β}

theorem done {a : α} {b : β} (same : R a b) :
    Program.Along P e R (pure a : Program H α) (pure b) := Act.Along.done same

theorem failed {f f' : Failure} (same : f.cause = f'.cause) :
    Program.Along P e R (throw f : Program H α) (throw f' : Program H β) := Act.Along.done same

theorem fail (cause : Cause) (s s' : CallStack) :
    Program.Along P e R (Program.fail cause s : Program H α)
      (Program.fail cause s' : Program H β) :=
  failed rfl

theorem bind {f : α → Program H α'} {f' : β → Program H β'} (first : Program.Along P e R m m')
    (rest : ∀ a b, R a b → Program.Along P e S (f a) (f' b)) :
    Program.Along P e S (m >>= f) (m' >>= f') := by
  unfold Program.Along at *
  rw [ExceptT.run_bind, ExceptT.run_bind]
  refine first.bind fun r r' same => ?_
  cases r with
  | ok a =>
    cases r' with
    | ok b => exact rest a b same
    | error failure => exact same.elim
  | error failure =>
    cases r' with
    | ok b => exact same.elim
    | error other => exact .done same

theorem lift {m : Act H α} {m' : Act H β} (along : Act.Along P e R m m') :
    Program.Along P e R m.lift m'.lift := by
  unfold Program.Along Act.lift
  rw [ExceptT.run_lift, ExceptT.run_lift, map_eq_pure_bind, map_eq_pure_bind]
  exact along.bind fun a b same => .done same

theorem access {a a' : Access H} {T : a.Answer → a'.Answer → Prop}
    (along : Request.Along P e (.access a) (.access a') T) :
    Program.Along P e T (Program.access a) (Program.access a') := lift (.request along)

theorem mapM {γ : Type} {T : γ → γ → Prop} {f : γ → Program H α} {f' : γ → Program H β}
    {xs ys : List γ} (same : List.Forall₂ T xs ys)
    (each : ∀ x y, T x y → Program.Along P e R (f x) (f' y)) :
    Program.Along P e (List.Forall₂ R) (xs.mapM f) (ys.mapM f') := by
  induction same with
  | nil => exact done .nil
  | cons here _ ih =>
    rw [List.mapM_cons, List.mapM_cons]
    exact (each _ _ here).bind fun a b first => ih.bind fun as bs rest => done (.cons first rest)

end Program.Along

/-- Worlds that are the same along the pairing, with the environment for which programs run. Values
    that will be made one after the other are paired already. -/
structure World.Along (P : Value → Value → Prop) (e : EnvironmentId) (w w' : World H) : Prop where
  paired : OneToOne P
  node : ∀ {v v'}, P v v' → (w.node v).Along P (w'.node v')
  made : ∀ {v v'}, P v v' → (w.Made v ↔ w'.Made v')
  remembered : ∀ {v v'} (key : KeyId), P v v' → key.index < standardKinds.length →
    Option.Rel (Payload.Along P) (w.remembered v key) (w'.remembered v' key)
  fresh : ∀ j, P ⟨w.cells.size + j⟩ ⟨w'.cells.size + j⟩
  standard : w.Standard e
  standard' : w'.Standard e
  housed : e.index < w.environments.size
  housed' : e.index < w'.environments.size
  environment : (w.environment e).Along P (w'.environment e)
  buffers : w'.buffers = w.buffers
  console : w'.console = w.console

namespace World.Along
variable {w w' : World H} (along : w.Along P e w')
include along

theorem create {n n' : Node H} (node : n.Along P n') :
    P (w.create n).1 (w'.create n').1 ∧ (w.create n).2.Along P e (w'.create n').2 := by
  have new : P (w.create n).1 (w'.create n').1 := along.fresh 0
  refine ⟨new, { along with node := ?_, made := ?_, remembered := ?_, fresh := ?_ }⟩
  · intro v v' pair
    rw [node_create, node_create]
    by_cases same : v = (w.create n).1
    · rw [if_pos same, if_pos ((along.paired new pair).mp same)]
      exact node
    · rw [if_neg same, if_neg fun other => same ((along.paired new pair).mpr other)]
      exact along.node pair
  · intro v v' pair
    have old := along.made pair
    have last : v.id = w.cells.size ↔ v'.id = w'.cells.size := by
      have here := along.paired new pair
      simp only [World.create] at here
      constructor
      · intro same
        exact congrArg Value.id (here.mp (by rw [← same]))
      · intro same
        exact congrArg Value.id (here.mpr (by rw [← same]))
    simp only [World.Made, World.create, Array.size_push] at old ⊢
    omega
  · intro v v' key pair standard
    rw [remembered_create, remembered_create]
    exact along.remembered key pair standard
  · intro j
    have later := along.fresh (1 + j)
    simpa only [World.create, Array.size_push, Nat.add_assoc] using later

theorem remember {v v' : Value} {key : KeyId} {p p' : Payload H} (pair : P v v')
    (answer : p.Along P p') : (w.remember v key p).Along P e (w'.remember v' key p') := by
  have size : ∀ (w : World H) (v : Value) p, (w.remember v key p).cells.size = w.cells.size :=
    fun w v p => by simp [World.remember]
  refine { along with node := ?_, made := ?_, remembered := ?_, fresh := ?_ }
  · intro u u' pair
    rw [node_remember, node_remember]
    exact along.node pair
  · intro u u' pair
    rw [World.Made, World.Made, size, size]
    exact along.made pair
  · intro u u' other pair' standard
    by_cases made : w.Made v
    · rw [remembered_remember _ _ _ _ _ _ made,
        remembered_remember _ _ _ _ _ _ ((along.made pair).mp made)]
      by_cases same : u = v ∧ other.index = key.index
      · rw [if_pos same, if_pos ⟨(along.paired pair pair').mp same.1, same.2⟩]
        exact .some answer
      · rw [if_neg same, if_neg fun both => same ⟨(along.paired pair pair').mpr both.1, both.2⟩]
        exact along.remembered other pair' standard
    · rw [remembered_remember_unmade _ _ _ _ _ _ made,
        remembered_remember_unmade _ _ _ _ _ _ fun there => made ((along.made pair).mpr there)]
      exact along.remembered other pair' standard
  · intro j
    rw [size, size]
    exact along.fresh j

theorem change {f f' : Environment H → Environment H}
    (rules : ∀ E, (f E).rules = E.rules) (rules' : ∀ E, (f' E).rules = E.rules)
    (environment : (f (w.environment e)).Along P (f' (w'.environment e))) :
    (w.change e f).Along P e (w'.change e f') := by
  have here := w.environment_change e e f along.housed
  have there := w'.environment_change e e f' along.housed'
  rw [if_pos rfl] at here there
  refine { along with
    standard := ?_, standard' := ?_, housed := ?_, housed' := ?_, environment := ?_ }
  · rw [Standard, here, rules]
    exact along.standard
  · rw [Standard, there, rules']
    exact along.standard'
  · simpa [World.change] using along.housed
  · simpa [World.change] using along.housed'
  · rw [here, there]
    exact environment

theorem define (name : String) {v v' : Value} (pair : P v v') :
    (w.change e (·.define name v)).Along P e (w'.change e (·.define name v')) := by
  refine along.change (fun _ => rfl) (fun _ => rfl) ⟨fun other => ?_, along.environment.output⟩
  rw [lookup_define, lookup_define]
  split
  · exact .some pair
  · exact along.environment.lookup other

theorem print (line : String) (output : Output) :
    (w.print line output).Along P e (w'.print line output) := by
  cases output with
  | capture buffer => exact { along with buffers := by simp [World.print, along.buffers] }
  | console => exact { along with console := by simp [World.print, along.console] }
  | discard => exact along

theorem perform {a a' : Access H} {T : a.Answer → a'.Answer → Prop}
    (request : Request.Along P e (.access a) (.access a') T) :
    T (a.perform w).1 (a'.perform w').1 ∧ (a.perform w).2.Along P e (a'.perform w').2 := by
  cases request with
  | create node => exact along.create node
  | inspect value => exact ⟨along.node value, along⟩
  | environment => exact ⟨along.environment, along⟩
  | define name value => exact ⟨trivial, along.define name value⟩
  | setOutput output =>
    exact ⟨trivial, along.change (fun _ => rfl) (fun _ => rfl) ⟨along.environment.lookup, rfl⟩⟩
  | print output line => exact ⟨trivial, along.print line output⟩

end World.Along

end TraitDispatch
