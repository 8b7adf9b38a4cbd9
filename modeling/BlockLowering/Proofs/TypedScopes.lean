import BlockLowering.Proofs.TypedSteps
/-!
Types around a point of a run. A context stands for every scope of the chain: it types the variables that the
scope has gathered, and the values that leave through it. Whatever is found on the way outwards, a variable, the
receiver of the function or the target of an exit, then has the type that the innermost context gives it.
-/
namespace BlockLowering
open Lower List Option TypeFact ScopeKind Chain Ty
variable {T given : Ty} {label : String} {t : NativeType} {kind : ScopeKind} {number scope : Nat} {exit : Exit} {target : CallTarget} {var : VarId}

namespace Types
open Regime
variable {α β : Type} {o : Origin} {F : Frame} {needs : List TypeFact} {step : Lower α} {gives : α → List TypeFact}
variable {k : Continuation} {chain : Chain} {args : List Register}

/-! ### Joins -/

theorem resumeAt (joins : .joins k ∈ needs) : Types o F needs (resumeAt k) fun v => [.result v k.ty] := by
  refine .bindKnown (P := fun live => k.ty.isNever = true → live = false) enterBlock ?_ fun live dead => ?_
  · intro s live s' holds facts run never
    obtain ⟨p,-,-,there⟩ := Types.known holds facts
    rcases there _ joins with ⟨-,inside⟩ | ⟨alive,-⟩
    · exact enter_sealed holds inside run
    · simp [never] at alive
  · split
    · rename_i alive
      refine answer fun _ facts f inside => ?_
      obtain rfl := mem_singleton.mp inside
      rcases facts _ (mem_append_right _ joins) with ⟨never,-⟩ | ⟨lives,takes⟩
      · simp [dead never] at alive
      · exact ⟨takes.value,by simp [lives]⟩
    · refine answer fun _ _ f inside => ?_
      obtain rfl := mem_singleton.mp inside
      exact ⟨.inl rfl,fun _ => rfl⟩

theorem joinedAt {f : Continuation → Lower β} {gives : β → List TypeFact}
    (stored : T.StoredAs t) (rest : ∀ k, k.ty = T → Types o F (.takes k t :: .joins k :: needs) (f k) gives) :
    Types o F needs (Lower.newContinuation T label >>= f) gives := by
  obtain ⟨live,rfl⟩ := stored
  refine .bindKnown (P := fun k => k.ty = T) newContinuation (fun _ _ run => run.newContinuation_merges.1) fun k same => ?_
  refine infer (f := .joins k) (fun _ facts => .inr ⟨same ▸ live,?_⟩) ((rest k same).widen (by simp))
  rw [same]
  exact facts (.takes k T.storage) (by simp)

theorem taking (live : k.ty.isNever = false) (joins : .joins k ∈ needs)
    (keeps : Types o F (.takes k k.ty.storage :: needs) step gives) : Types o F needs step gives := by
  refine infer (fun _ facts => ?_) keeps
  rcases facts _ joins with ⟨never,-⟩ | ⟨-,takes⟩
  · simp [live] at never
  · exact takes

theorem accepted (v : Value) (required : Ty) (result : .result v given ∈ needs) (fits : required.Accepts given)
    (keeps : Types o F (.value v required.storage :: needs) step gives) : Types o F needs step gives := by
  refine infer (f := .value v required.storage) (fun _ facts => ?_) keeps
  obtain ⟨typed,ended⟩ := facts _ result
  rcases fits with never | ⟨-,same⟩
  · exact .inl (ended never)
  · exact same ▸ typed

theorem deliver {v : Value} (joins : .joins k ∈ needs) (result : .result v given ∈ needs)
    (fits : k.ty.Accepts given) : Types o F needs (deliver k v) noFacts := by
  unfold Lower.deliver
  split
  · exact .done
  · rename_i reached
    refine learn (P := k.ty.isNever = false) (fun _ facts => ?_) fun live => ?_
    · rcases fits with never | ⟨live,-⟩
      · exact absurd ((facts _ result).2 never) reached
      · exact live
    · exact taking live joins (accepted v k.ty (.tail _ result) fits (jump (t := k.ty.storage) (by simp) (by simp)))

/-! ### Scopes -/

theorem withScope {step : Chain → Lower α} (Γ : TypeContext)
    (inside : Types o { F with contexts := F.contexts ++ [Γ] } needs (step (⟨F.contexts.length,kind⟩ :: chain)) gives) :
    Types o F needs (withScope kind chain step) gives := by
  have opens : (typing F).Opens (typing { F with contexts := F.contexts ++ [Γ] }) := by
    refine ⟨Iff.rfl,Iff.rfl,Iff.rfl,fun {m p n i scope} opened below => ?_,fun {n} opened => ?_,fun {n n'} opened opened' => ?_⟩
    · have old : (F.contexts ++ [Γ])[i]? = F.contexts[i]? := getElem?_append_left (opened ▸ below)
      simp only [typing,old]
    · show n + 1 = (F.contexts ++ [Γ]).length
      rw [length_append,length_singleton,show n = F.contexts.length from opened]
    · have inner : n' = (F.contexts ++ [Γ]).length := opened'
      rw [length_append,length_singleton] at inner
      show min n n' = F.contexts.length
      rw [inner,show n = F.contexts.length from opened]
      omega
  refine keeps_withScope opens ?_
  rintro number rfl
  exact inside

theorem scopeState : Types o F needs (scopeState number) fun scope =>
    scope.landingPad.toList.map .admits ++ scope.handler.toList.map (takes · .ptr) :=
  keeps_scopeState fun {m p scope} fits f inside => by
    rcases mem_append.mp inside with pad | handler
    · obtain ⟨b,there,rfl⟩ := mem_map.mp pad
      exact fits.1.landingPad b (mem_toList.mp there)
    · obtain ⟨k,there,rfl⟩ := mem_map.mp handler
      exact fits.1.handler k (mem_toList.mp there)

theorem cleanups {Γ : TypeContext} (scope : F.contexts[number]? = some Γ)
    (carries : Γ.exitTy exit = some T) : Types o F needs (Lower.scopeState number) fun scope =>
      (scope.cleanups.get? exit).toList.map (takes · T.storage) :=
  keeps_scopeState fun {m p state} fits f inside => by
    obtain ⟨k,there,rfl⟩ := mem_map.mp inside
    obtain ⟨ty,carried,takes⟩ := (fits.2 scope).cleanups (mem_toList.mp there)
    obtain rfl := mem_unique carried carries
    exact takes

theorem handlerOf : Types o F needs (handlerOf scope) fun k => [.takes k .ptr] := by
  refine .bind scopeState fun state => ?_
  split
  · rename_i handler there
    exact .pure (by simp [there])
  · refine .bind newContinuation fun handler => ?_
    refine .andThen (keeps_modifyScope fun {m p state} facts fits => ?_) fun _ => .pure (by simp [object,storage])
    refine ⟨⟨fun k there => ?_,fits.1.landingPad⟩,fun there => ⟨(fits.2 there).slots,(fits.2 there).cleanups⟩⟩
    cases there
    exact facts (.takes handler .ptr) (by simp [object,storage])

/-! ### Targets and calls -/

theorem quietly (quiet : ∀ {s a s'}, Runs step o.env s a s' → s.Quiet o.env s')
    (sure : ∀ {s a s'}, Runs step o.env s a s' → ∀ p, ∀ f ∈ gives a, f.Holds F.isSealed p) : Types o F needs step gives where
  lead holds facts run := by
    obtain ⟨holds',kept,-⟩ := (keeps_quiet (r := typing F) quiet).lead holds facts run
    obtain ⟨p,c,there⟩ := holds'
    exact ⟨⟨p,c,there⟩,kept,fun f inside => there.knows.mpr (sure run p f inside)⟩

theorem supportTarget {routine : SupportRoutine} :
    Types o F needs (supportTarget routine) fun target => [.calls target routine.header.signature] := by
  refine quietly (fun run => run.supportTarget.1) fun run p f inside => ?_
  obtain ⟨-,proc,rfl,-⟩ := run.supportTarget
  obtain rfl := mem_singleton.mp inside
  exact ⟨rfl,fun same => by cases same⟩

theorem directTarget {id : FunctionId} {function : FunctionDecl} (declared : o.env.decls.functions.get? id = some function) :
    Types o F needs (directTarget id) fun target => [.calls target function.nativeHeader.signature] := by
  refine quietly (fun run => run.directTarget.1) fun run p f inside => ?_
  obtain ⟨-,function',proc,declared',-,rfl⟩ := run.directTarget
  obtain rfl := mem_unique declared declared'
  obtain rfl := mem_singleton.mp inside
  exact ⟨rfl,fun same => by cases same⟩

section
variable {target : CallTarget} {args : List Register} {lifetime : Lifetime} {chain : Chain} (signature : Signature)
  (calls : .calls target signature ∈ needs) (supplied : .registers args signature.params ∈ needs)
include calls supplied

theorem callable {p : Procedure} (facts : ∀ f ∈ needs, f.Holds F.isSealed p) : args.map p.typeOf = target.signature.params.map some ∧
      ∀ {pointer}, target.callee = .indirect pointer → p.typeOf pointer = some target.signature.type := by
  obtain ⟨rfl,pointer⟩ := facts _ calls
  exact ⟨facts _ supplied,pointer⟩

theorem callHere : Types o F needs (build (Build.call ⟨target.callee,args,target.signature,lifetime⟩)) fun dest =>
    [.outcome dest signature.result] := by
  refine learn (P := target.signature = signature) (fun _ facts => (facts _ calls).1) fun same => ?_
  refine (call fun facts => callable signature calls supplied facts).mono (Subset.refl _) fun dest => ?_
  rw [same]
  exact subset_append_left _ _

theorem callPlain : Types o F needs (callPlain target args) fun dest => [.outcome dest signature.result] :=
  callHere signature calls supplied

end

theorem supply (args : List Register) (ts : List NativeType) (given : List.Forall₂ (fun r t => register r t ∈ needs) args ts)
    (keeps : Types o F (.registers args ts :: needs) step gives) : Types o F needs step gives := by
  refine infer (f := .registers args ts) (fun {p} _ facts => ?_) keeps
  clear keeps
  induction given with
  | nil => rfl
  | cons first _ ih => exact congrArg₂ List.cons (facts _ first) ih

theorem produced {product : Product} {dest : Option Register} (outcome : .outcome dest t ∈ needs) :
    Types o F needs (produced product dest) fun r => [.register r t,.plain r] where
  lead holds facts run := by
    obtain ⟨rfl,rfl⟩ := runs_produced.mp run
    obtain ⟨p,here,-,there⟩ := Types.known holds facts
    obtain ⟨known,free⟩ := (there _ outcome).2 _ rfl
    refine ⟨holds,fun _ old => old,fun f inside => ⟨p,here,?_⟩⟩
    simp only [mem_cons,not_mem_nil,or_false] at inside
    rcases inside with rfl | rfl
    · exact known
    · exact ⟨by simp [known],free⟩

theorem callRoutine (routine : SupportRoutine) (ts : List NativeType)
    (t : NativeType) (calls : .calls target routine.header.signature ∈ needs) (same : routine.header.signature = ⟨ts,t⟩)
    (given : List.Forall₂ (fun r t => register r t ∈ needs) args ts) :
    Types o F needs (Lower.callPlain target args) fun dest => [.outcome dest t] := by
  rw [same] at calls
  exact supply args ts given (callPlain ⟨ts,t⟩ (.tail _ calls) (.head _))

theorem extractException {record : Register} (given : .register record .ptr ∈ needs) :
    Types o F needs (Lower.extractException record) fun r => [.register r .ptr] := by
  refine .bind supportTarget fun target => .bind (callRoutine .beginCatch [.ptr] .ptr (by simp) rfl (by simp [given])) fun dest => ?_
  refine .bind (produced (t := .ptr) (by simp)) fun exception => .bind supportTarget fun target' => ?_
  exact .bind (callRoutine .endCatch [] .void (by simp) rfl .nil) fun _ => .pure (by simp)

theorem landingPadOf : Types o F needs (landingPadOf scope) fun b => [.admits b] := by
  refine .bind scopeState fun state => ?_
  split
  · rename_i pad there
    exact .pure (by simp [there])
  · refine .bind labelledBlock fun pad => .andThen (keeps_modifyScope fun {m p state} facts fits => ?_) fun _ => ?_
    · refine ⟨⟨fits.1.handler,fun b there => ?_⟩,fun there => ⟨(fits.2 there).slots,(fits.2 there).cleanups⟩⟩
      cases there
      exact facts (.admits pad) (by simp)
    · refine .bind handlerOf fun handler => .andThen (keeps_atBlock (fun _ => trivial) ?_) fun _ => .andThen keeps_log fun _ => .pure (by simp)
      refine .bind landingPad fun record => .bind (extractException (by simp)) fun exception => ?_
      exact ofRegister (t := .ptr) exception .object rfl (by simp) (jump (t := .ptr) (by simp) (by simp))

theorem callAt {lifetime : Lifetime} (signature : Signature)
    (calls : .calls target signature ∈ needs) (supplied : .registers args signature.params ∈ needs) :
    Types o F needs (Lower.call chain target args lifetime) fun dest => [.outcome dest signature.result] := by
  refine .andThen .lift fun catcher => ?_
  split
  · split
    · refine .bind landingPadOf fun pad => .bind labelledBlock fun normal => ?_
      refine learn (P := target.signature = signature) (fun _ facts => (facts (.calls target signature) (by simp [calls])).1)
        fun same => ?_
      refine .bind (invoke (fun facts => callable signature (by simp [calls]) (by simp [supplied]) facts) (by simp)
        (by simp)) fun dest => ?_
      exact .andThen (keeps_switchTo fun _ => trivial) fun _ => .pure (by simp [same])
    · exact callHere signature calls supplied
  · exact callHere signature calls supplied

theorem callSupport (routine : SupportRoutine) (ts : List NativeType) (t : NativeType) (same : routine.header.signature = ⟨ts,t⟩)
    (given : List.Forall₂ (fun r t => register r t ∈ needs) args ts) :
    Types o F needs (Lower.callSupport chain routine args) fun dest => [.outcome dest t] := by
  refine supply args ts given (.bind supportTarget fun target => ?_)
  rw [same]
  split
  · exact callAt ⟨ts,t⟩ (by simp) (by simp)
  · exact callPlain ⟨ts,t⟩ (by simp) (by simp)

theorem throwException {exception : Register} (given : .register exception .ptr ∈ needs) :
    Types o F needs (Lower.throwException chain exception) noFacts := by
  refine .andThen .lift fun catcher => ?_
  split
  · refine .bind handlerOf fun handler => ?_
    exact ofRegister (t := .ptr) exception .object rfl (by simp [given]) (jump (t := .ptr) (by simp) (by simp))
  · refine .bind supportTarget fun target => ?_
    exact .bind (callRoutine .throwException [.ptr] .void (by simp) rfl (by simp [given])) fun _ => unreachable

end Types

/-! ### Contexts of a chain -/

def ScopeKind.facts : ScopeKind → List TypeFact
  | .function _ _ receiver => receiver.toList.map fun v => .value v v.ty.storage
  | .loop _ exit check => [.takes exit .ptr,.admits check]
  | .inlined _ exit => [.joins exit]
  | .variables | .catching | .finalizing _ => []

/-- One context holds around a scope and another inside it. A function is returned from with values of the type that
    it returns, and inside an inlined body the continuation behind it takes the returned values. -/
def ScopeKind.Turns (decls : Declarations) (result : NativeType) (outer inner : TypeContext) : ScopeKind → Prop
  | .function id returnsVoid receiver => TypeContext.Extends outer.locals inner.locals ∧
      inner.receiver = receiver.map (fun v => v.ty.storage) ∧ ∀ {target ty}, inner.returns target = some ty →
        id = some target ∧ (returnsVoid = true → result = .void) ∧
          (returnsVoid = false → result ≠ .void ∧ ty.storage = result)
  | .variables => TypeContext.Extends outer.locals inner.locals ∧ inner.receiver = outer.receiver ∧
      inner.returns = outer.returns
  | .loop .. | .catching => inner = outer
  | .finalizing finalizer => inner = outer ∧ finalizer.WellTyped decls outer
  | .inlined id exit => inner = outer.inline id exit.ty

/-- A context holds inside a chain of scopes, of which each has its own. -/
def Chain.Typed (decls : Declarations) (contexts : List TypeContext) (result : NativeType) : Chain → TypeContext → Prop
  | [], _ => True
  | scope :: outer, Γ => contexts[scope.id]? = some Γ ∧
      ∃ Γ', scope.kind.Turns decls result Γ' Γ ∧ Chain.Typed decls contexts result outer Γ'

def Chain.facts (chain : Chain) : List TypeFact := chain.flatMap fun scope => scope.kind.facts

/-- A context holds at a point where the scopes around it are known. -/
structure Around (o : Origin) (F : Frame) (needs : List TypeFact) (chain : Chain) (Γ : TypeContext) : Prop where
  named : ∀ {id function}, o.env.decls.functions.get? id = some function → function.id = id
  typed : chain.Typed o.env.decls F.contexts F.result Γ
  facts : chain.facts ⊆ needs

section
variable {o : Origin} {F : Frame} {needs : List TypeFact} {chain : Chain} {Γ Γ' : TypeContext} {decls : Declarations}
  {contexts contexts' : List TypeContext} {result : NativeType}

theorem ScopeKind.Turns.locals (turns : kind.Turns decls result Γ' Γ) : TypeContext.Extends Γ'.locals Γ.locals := by
  cases kind with
  | function _ _ _ => exact turns.1
  | «variables» => exact turns.1
  | finalizing _ =>
    obtain ⟨rfl,-⟩ := turns
    exact fun bound => bound
  | _ =>
    obtain rfl : Γ = _ := turns
    exact fun bound => bound

theorem ScopeKind.Turns.exitTy (turns : kind.Turns decls result Γ' Γ)
    (passed : kind.claims exit = false) (plain : ∀ finalizer, kind ≠ .finalizing finalizer) (carries : Γ.exitTy exit = some T) :
    Γ'.exitTy exit = some T := by
  cases exit with
  | returning target =>
    cases kind with
    | function id returnsVoid receiver =>
      obtain ⟨rfl,-⟩ := turns.2.2 carries
      simp [claims] at passed
    | «variables» => rw [← carries,TypeContext.exitTy,TypeContext.exitTy,turns.2.2]
    | finalizing finalizer => exact absurd rfl (plain finalizer)
    | inlined id exitTo =>
      obtain rfl : Γ = Γ'.inline id exitTo.ty := turns
      have other : id ≠ target := by simpa [claims] using passed
      simpa [TypeContext.exitTy,TypeContext.inline,other.symm] using carries
    | _ =>
      obtain rfl : Γ = Γ' := turns
      exact carries
  | _ => exact carries

section
variable (typed : chain.Typed decls contexts result Γ)
include typed

theorem Chain.Typed.more
    (more : ∀ {i : Nat} {Γ}, contexts[i]? = some Γ → contexts'[i]? = some Γ) : chain.Typed decls contexts' result Γ := by
  induction chain generalizing Γ with
  | nil => trivial
  | cons scope outer ih =>
    obtain ⟨here,Γ',turns,outside⟩ := typed
    exact ⟨more here,Γ',turns,ih outside⟩

theorem Chain.Typed.local {scope : Scope} (inside : scope ∈ chain) :
    ∃ Γs, contexts[scope.id]? = some Γs ∧ TypeContext.Extends Γs.locals Γ.locals := by
  induction chain generalizing Γ with
  | nil => cases inside
  | cons first outer ih =>
    obtain ⟨here,Γ',turns,outside⟩ := typed
    rcases mem_cons.mp inside with rfl | further
    · exact ⟨Γ,here,fun bound => bound⟩
    · obtain ⟨Γs,there,extends'⟩ := ih outside further
      exact ⟨Γs,there,fun bound => turns.locals (extends' bound)⟩

theorem Chain.Typed.owner {id : Nat} (owner : chain.variableOwner? = some id) : ∃ Γs, contexts[id]? = some Γs ∧ Γs.locals = Γ.locals := by
  induction chain generalizing Γ with
  | nil => cases owner
  | cons first outer ih =>
    obtain ⟨number,kind⟩ := first
    obtain ⟨here,Γ',turns,outside⟩ := typed
    cases kind with
    | function _ _ _ | «variables» =>
      cases owner
      exact ⟨Γ,here,rfl⟩
    | finalizing _ =>
      obtain ⟨rfl,-⟩ := turns
      exact ih outside owner
    | _ =>
      obtain rfl : Γ = _ := turns
      obtain ⟨Γs,there,same⟩ := ih outside owner
      exact ⟨Γs,there,same⟩

theorem Chain.Typed.receiver {receiver : Option Value} (found : chain.receiver = .ok receiver) :
    Γ.receiver = receiver.map (fun v => v.ty.storage) ∧ ∀ v ∈ receiver, .value v v.ty.storage ∈ chain.facts := by
  induction chain generalizing Γ with
  | nil => cases found
  | cons first outer ih =>
    obtain ⟨number,kind⟩ := first
    obtain ⟨here,Γ',turns,outside⟩ := typed
    have further : ∀ {v}, .value v v.ty.storage ∈ facts outer →
        .value v v.ty.storage ∈ facts (⟨number,kind⟩ :: outer) := fun inside => by
      exact mem_append_right _ inside
    have deeper : Γ.receiver = Γ'.receiver → Chain.receiver outer = .ok receiver →
        Γ.receiver = receiver.map (fun v => v.ty.storage) ∧
          ∀ v ∈ receiver, .value v v.ty.storage ∈ facts (⟨number,kind⟩ :: outer) := fun same found => by
      obtain ⟨stored,known⟩ := ih outside found
      exact ⟨same.trans stored,fun v there => further (known v there)⟩
    cases kind with
    | function _ _ _ =>
      cases found
      refine ⟨turns.2.1,fun v there => ?_⟩
      exact mem_append_left _ (mem_map.mpr ⟨v,mem_toList.mpr there,rfl⟩)
    | «variables» => exact deeper turns.2.1 found
    | finalizing _ => exact deeper (congrArg TypeContext.receiver turns.1) found
    | _ =>
      obtain rfl : Γ = _ := turns
      exact deeper rfl found

end

theorem Around.more {facts : List TypeFact} (here : Around o F needs chain Γ) : Around o F (facts ++ needs) chain Γ :=
  ⟨here.named,here.typed,fun _ inside => mem_append_right _ (here.facts inside)⟩

theorem Around.cons {f : TypeFact} (here : Around o F needs chain Γ) : Around o F (f :: needs) chain Γ :=
  ⟨here.named,here.typed,fun _ inside => .tail _ (here.facts inside)⟩

theorem Around.enter (here : Around o F needs chain Γ) (kind : ScopeKind) (turns : kind.Turns o.env.decls F.result Γ Γ')
    (facts : kind.facts ⊆ needs) : Around o { F with contexts := F.contexts ++ [Γ'] } needs (⟨F.contexts.length,kind⟩ :: chain) Γ' where
  named := here.named
  typed := ⟨by simp,Γ,turns,here.typed.more fun {i Γ} there => by
    rw [List.getElem?_append_left (List.getElem?_eq_some_iff.mp there).1]
    exact there⟩
  facts := by
    exact append_subset.mpr ⟨facts,here.facts⟩

end

namespace Types
open Regime
variable {α β : Type} {o : Origin} {F : Frame} {needs : List TypeFact} {chain : Chain} {Γ : TypeContext} {recurse : Recurse}
variable {t : NativeType} {v : Value}

theorem inScope {step : Chain → Lower α} {gives : α → List TypeFact} (here : Around o F needs chain Γ)
    (Γ' : TypeContext) (turns : kind.Turns o.env.decls F.result Γ Γ') (facts : kind.facts ⊆ needs)
    (inside : ∀ {F' number}, Around o F' needs (⟨number,kind⟩ :: chain) Γ' →
      Types o F' needs (step (⟨number,kind⟩ :: chain)) gives) : Types o F needs (Lower.withScope kind chain step) gives :=
  withScope Γ' (inside (here.enter kind turns facts))

/-- A construct makes the continuation that its ways to complete lead to. If its type has no value, the block is
    sealed until the construct is left. -/
theorem joined {ty : Ty} {f : Continuation → Lower Value} (here : Around o F needs chain Γ)
    (rest : ∀ isSealed k, k.ty = T → Around o { F with isSealed } (.joins k :: needs) chain Γ →
      Types o { F with isSealed } (.joins k :: needs) (f k) fun v => [.result v ty]) :
    Types o F needs (Lower.newContinuation T label >>= f) fun v => [.result v ty] := by
  have enclosing : ∀ isSealed k, Around o { F with isSealed } (.joins k :: needs) chain Γ :=
    fun _ _ => ⟨here.named,here.typed,here.cons.facts⟩
  by_cases never : T.isNever = true
  · constructor
    rintro s v s' ⟨p,c,kept⟩ facts run
    obtain ⟨k,s₁,made,run⟩ := runs_bind.mp run
    obtain ⟨block,s₂,created,made⟩ := runs_bind.mp made
    rw [if_pos (by simp [isValueless,never])] at made
    obtain ⟨rfl,rfl⟩ := runs_pure.mp made
    obtain ⟨b,built,rfl⟩ := runs_build.mp created
    obtain ⟨p₁,rfl,rfl,advances⟩ := labelled built kept.stands.procedure kept.good
    have evolves : (typing F).Evolves (typing { F with isSealed := p.nextBlock :: F.isSealed }) s.builder.output p p₁ :=
      typing_evolves advances.typed advances.retains rfl (by
        rintro _ ⟨outside,k,found⟩
        exact ⟨by simpa using ⟨Procedure.Typed.nextBlock_ne kept.good found,outside⟩,advances.retains.blocks found⟩)
        (subset_cons_self _ _)
    have kept₁ := (kept.put evolves).1
    obtain ⟨⟨p₂,c₂,kept₂⟩,persists,given⟩ := (rest _ ⟨p.nextBlock,none,T⟩ rfl (enclosing _ _)).lead ⟨_,_,kept₁⟩ (fun g inside => by
      rcases mem_cons.mp inside with rfl | old
      · exact kept₁.knows.mpr (.inl ⟨never,.head _⟩)
      · exact kept₁.knows.mpr (evolves.bears (kept.knows.mp (facts g old)))) run
    have fewer : F.isSealed ⊆ p.nextBlock :: F.isSealed := subset_cons_self _ _
    have after : (typing F).Kept o s' p₂ c₂ := kept₂.exchange (Procedure.Typed.unseal kept₂.good fewer) trivial s'.scopes
      kept₂.opened fun there => typing_fits (F := { F with isSealed := p.nextBlock :: F.isSealed })
        ⟨fun h => h,fun _ h => h,rfl⟩ rfl (fun held => ⟨fun inside => held.1 (fewer inside),held.2⟩) (kept₂.scopes there)
    refine ⟨⟨p₂,c₂,after⟩,fun g there => after.knows.mpr ?_,fun g inside => after.knows.mpr ?_⟩
    · have before := kept.knows.mp there
      exact before.unseal (kept₂.knows.mp (persists g (kept₁.knows.mpr (evolves.bears before)))) fewer
    · obtain rfl := mem_singleton.mp inside
      exact kept₂.knows.mp (given _ inside)
  · exact joinedAt ⟨by simpa using never,rfl⟩ fun k same => (rest F.isSealed k same (enclosing _ k)).widen (by simp)

/-! ### Variables -/

theorem slot? (here : Around o F needs chain Γ) (bound : Γ.locals var = some t) :
    Types o F needs (slot? chain var) fun found => found.toList.map (slot · t) where
  lead {s found s'} holds facts run := by
    obtain ⟨_,_,got,rest⟩ := runs_bind.mp run
    obtain ⟨rfl,rfl⟩ := runs_get.mp got
    obtain ⟨rfl,rfl⟩ := runs_pure.mp rest
    refine ⟨holds,fun _ old => old,fun f inside => ?_⟩
    obtain ⟨p,c,kept⟩ := holds
    obtain ⟨slot,there,rfl⟩ := mem_map.mp inside
    obtain ⟨scope,member,gathered⟩ := exists_of_findSome?_eq_some (mem_toList.mp there)
    obtain ⟨state,opened,holds⟩ := bind_eq_some_iff.mp gathered
    obtain ⟨Γs,known,extends'⟩ := here.typed.local member
    obtain ⟨t',stored,typed⟩ := ((kept.scopes opened).2 known).slots holds
    obtain rfl := mem_unique (extends' stored) bound
    exact kept.knows.mpr typed

theorem declareVariable {slot : Slot} (here : Around o F needs chain Γ)
    (bound : Γ.locals var = some t) (given : .slot slot t ∈ needs) : Types o F needs (declareVariable chain var slot) noFacts := by
  unfold Lower.declareVariable
  split
  · exact .throw
  · rename_i id owner
    obtain ⟨Γs,there,same⟩ := here.typed.owner owner
    refine .andThen keeps_log fun _ => keeps_modifyScope fun {m p state} facts fits => ⟨⟨fits.1.handler,fits.1.landingPad⟩,?_⟩
    intro Γ' context
    obtain rfl := mem_unique there context
    exact ⟨fun found => Table.of_insert found ⟨t,by rw [same,bound],facts _ given⟩ (fits.2 there).slots,(fits.2 there).cleanups⟩

/-! ### Exits -/

/-- The lowering of well-typed expressions gives values of their types. -/
def Preserved (recurse : Recurse) : Prop :=
  ∀ {o F needs chain Γ e}, Around o F needs chain Γ → Expr.WellTyped o.env.decls Γ e →
    Types o F needs (recurse chain e) fun v => [.result v e.ty]

theorem evalThen {e : Expr} {f : Option Value → Lower β} {gives : β → List TypeFact}
    (preserved : Preserved recurse) (here : Around o F needs chain Γ) (typed : e.WellTyped o.env.decls Γ)
    (fits : t.Accepts e.ty) (ended : Types o F needs (f none) gives)
    (rest : ∀ v, v.isUnreachable = false → e.ty.isNever = false → Types o F (.value v t :: needs) (f (some v)) gives) :
    Types o F needs (eval recurse chain e >>= f) gives where
  lead {s b s'} holds facts run := by
    obtain ⟨answer,s₁,evaluated,run⟩ := runs_bind.mp run
    obtain ⟨v,lowered,outcome⟩ := evaluated.eval
    obtain ⟨holds₁,kept₁,given₁⟩ := (preserved here typed).lead holds facts lowered
    have next : Types o F (.result v e.ty :: needs) (f answer) gives := by
      rcases outcome with ⟨rfl,-⟩ | ⟨rfl,reached,-⟩
      · exact ended.widen (by simp)
      · refine learn (P := e.ty.isNever = false) (fun _ facts => ?_) fun live => ?_
        · have never := (facts (.result v e.ty) (by simp)).2
          rw [reached] at never
          simpa using never
        · obtain rfl := fits.storage live
          exact infer (f := .value v e.ty.storage) (fun _ facts => (facts (.result v e.ty) (by simp)).1)
            ((rest v reached live).widen (by simp))
    obtain ⟨holds₂,kept₂,given₂⟩ := next.lead holds₁ (fun g inside => by
      rcases mem_cons.mp inside with rfl | before
      · exact given₁ _ (mem_singleton_self _)
      · exact kept₁ g (facts g before)) run
    exact ⟨holds₂,fun g there => kept₂ g (kept₁ g there),given₂⟩

theorem returnFrom {returnsVoid : Bool} (void : returnsVoid = true → F.result = .void)
    (valued : returnsVoid = false → F.result ≠ .void ∧ t = F.result) (given : .value v t ∈ needs) :
    Types o F needs (returnFrom returnsVoid v) noFacts := by
  unfold Lower.returnFrom
  split
  · rename_i empty
    exact retVoid (void empty)
  · rename_i nonempty
    obtain ⟨some',rfl⟩ := valued (by simpa using nonempty)
    exact .bind (materialize given) fun r => ret some' (by simp)

theorem restart {check : BlockId} (known : .admits check ∈ needs) : Types o F needs (restart check) noFacts := by
  refine .andThen .isTerminated fun ended => ?_
  split
  · exact .done
  · exact branch known

theorem storage_exitType (carries : Γ.exitTy exit = some T) (same : v.ty.storage = T.storage) :
    (exitType exit v).storage = T.storage := by
  cases exit with
  | returning target => exact same
  | breaking loop => exact congrArg storage (Option.some.inj carries)
  | continuing loop => exact congrArg storage (Option.some.inj carries)

/-- An exit carries values of its type outwards, through the finalizers on its way. -/
theorem leave (preserved : Preserved recurse) (here : Around o F needs chain Γ)
    (carries : Γ.exitTy exit = some T) (live : T.isNever = false) (reached : v.isUnreachable = false)
    (given : .value v T.storage ∈ needs) : Types o F needs (Lower.leave recurse chain exit v) noFacts := by
  induction chain generalizing needs v Γ with
  | nil => exact .throw
  | cons scope outer ih =>
    obtain ⟨number,kind⟩ := scope
    obtain ⟨named,⟨context,Γ',turns,outside⟩,facts⟩ := here
    obtain ⟨own,others⟩ := append_subset.mp facts
    have around : Around o F needs outer Γ' := ⟨named,outside,others⟩
    obtain ⟨step,same,exits⟩ := exits_leave number kind outer exit v
    rw [show Lower.leave recurse (⟨number,kind⟩ :: outer) exit v = step recurse from congrFun same recurse]
    cases exits with
    | @finalizing finalizer =>
      obtain ⟨rfl,finalizes⟩ := turns
      refine .bind (cleanups context carries) fun state => ?_
      split
      · rename_i cleanup there
        exact jump (t := T.storage) (by simp [there]) (by simp [given])
      · refine learn (P := (exitType exit v).storage = T.storage) (fun _ facts => ?_) fun stored => ?_
        · rcases facts (.value v T.storage) (by simp [given]) with ended | ⟨same,-⟩
          · simp [reached] at ended
          · exact storage_exitType carries same
        · refine .bind newContinuation fun cleanup => ?_
          rw [stored]
          refine .andThen (keeps_modifyScope fun {m p state} facts fits => ⟨⟨fits.1.handler,fits.1.landingPad⟩,?_⟩) fun _ =>
            .andThen keeps_log fun _ => .andThen (jump (t := T.storage) (by simp) (by simp [given])) fun _ => keeps_atBlock (fun _ => trivial) ?_
          · intro Γs there
            obtain rfl := mem_unique context there
            exact ⟨(fits.2 there).slots,fun found =>
              Table.of_insert found ⟨T,carries,facts (.takes cleanup T.storage) (by simp)⟩ (fits.2 there).cleanups⟩
          · refine infer (f := .value cleanup.value T.storage) (fun _ facts =>
              (facts (.takes cleanup T.storage) (by simp)).value) ?_
            refine evalThen preserved around.more.more.cons finalizes (.inr rfl) (.done) fun _ _ _ => ?_
            exact ih around.more.more.cons.cons carries cleanup.isUnreachable_value (by simp)
    | returning =>
      obtain ⟨-,void,valued⟩ := turns.2.2 carries
      exact returnFrom void valued given
    | @inlined function target =>
      obtain rfl : Γ = Γ'.inline function target.ty := turns
      obtain rfl : target.ty = T := by simpa [TypeContext.exitTy,TypeContext.inline] using carries
      exact taking live (own (by simp [ScopeKind.facts])) (jump (t := target.ty.storage) (by simp) (by simp [given]))
    | breaking => exact unitValue (jump (t := .ptr) (.tail _ (own (by simp [ScopeKind.facts]))) (by simp))
    | continuing => exact restart (own (by simp [ScopeKind.facts]))
    | outwards passed plain => exact ih around (turns.exitTy passed plain carries) reached given

end Types

end BlockLowering
