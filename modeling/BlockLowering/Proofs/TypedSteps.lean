import BlockLowering.Proofs.Exits
import BlockLowering.Proofs.Regimes
import BlockLowering.Proofs.RegisterTypes
import BlockLowering.Proofs.SourceTypes
/-!
Types in a run. The function at the cursor is well typed, variables and the blocks that scopes remember have
the types of their contexts, and facts say which types registers, values and continuations have. A
continuation of type `Nothing` is sealed: nothing ever leads to its block, so that there is no value either.
-/
namespace BlockLowering
open Lower List Build Procedure Terminator ScopeState Typed Continuation Option
variable {v : Value} {k : Continuation} {f : TypeFact} {left right : Register}

/-! ### Facts -/

/-- A value is stored as a native type, unless there is none. -/
def Value.Typed (p : Procedure) (v : Value) (t : NativeType) : Prop :=
  v.isUnreachable = true ∨ v.ty.storage = t ∧ (∀ r, v.form = .register r → p.typeOf r = some t) ∧ (v.form = .unit → t = .ptr)

/-- A variable holds values of a native type. -/
def Slot.Typed (p : Procedure) (t : NativeType) : Slot → Prop
  | .value v => v.Typed p t
  | .stack ptr ty => ty.storage = t ∧ p.PointsTo ptr t

/-- Edges may be drawn to a block. -/
def Procedure.Admits (isSealed : List BlockId) (p : Procedure) (b : BlockId) : Prop :=
  b ∉ isSealed ∧ ∃ k, p.graph.block? b = some k

/-- A continuation takes values of a native type. -/
structure Continuation.Takes (isSealed : List BlockId) (p : Procedure) (k : Continuation) (t : NativeType) : Prop where
  admitted : p.Admits isSealed k.block
  storage : k.ty.storage = t
  merged : ∀ r ∈ k.phi, p.typeOf r = some t
  bare : k.phi = none → t = .ptr

/-- A continuation takes values of its type, and is sealed if there are none. -/
def Continuation.Joins (isSealed : List BlockId) (p : Procedure) (k : Continuation) : Prop :=
  k.ty.isNever = true ∧ k.block ∈ isSealed ∨ k.ty.isNever = false ∧ k.Takes isSealed p k.ty.storage

/-- What is known of a function under construction. -/
inductive TypeFact where
  | register (r : Register) (t : NativeType)
  | registers (rs : List Register) (ts : List NativeType)
  /-- A register is not the address of a stack slot. -/
  | plain (r : Register)
  | points (r : Register) (t : NativeType)
  | value (v : Value) (t : NativeType)
  /-- The value of an expression of a type. -/
  | result (v : Value) (ty : Ty)
  | slot (held : Slot) (t : NativeType)
  /-- The result of a call, unless it is void. -/
  | outcome (dest : Option Register) (t : NativeType)
  | calls (target : CallTarget) (signature : Signature)
  | admits (b : BlockId)
  | takes (k : Continuation) (t : NativeType)
  | joins (k : Continuation)
  | header (h : Header)

def TypeFact.Holds (isSealed : List BlockId) (p : Procedure) : TypeFact → Prop
  | .register r t => p.typeOf r = some t
  | .registers rs ts => rs.map p.typeOf = ts.map some
  | .plain r => p.typeOf r ≠ none ∧ ∀ t, ¬ p.IsSlot r t
  | .points r t => p.PointsTo r t
  | .value v t => v.Typed p t
  | .result v ty => v.Typed p ty.storage ∧ (ty.isNever = true → v.isUnreachable = true)
  | .slot held t => held.Typed p t
  | .outcome dest t => (dest = none ↔ t = .void) ∧ ∀ r ∈ dest, p.typeOf r = some t ∧ ∀ t', ¬ p.IsSlot r t'
  | .calls target signature =>
    target.signature = signature ∧ ∀ {pointer}, target.callee = .indirect pointer → p.typeOf pointer = some signature.type
  | .admits b => p.Admits isSealed b
  | .takes k t => k.Takes isSealed p t
  | .joins k => k.Joins isSealed p
  | .header h => p.header = h

section
variable {isSealed isSealed' : List BlockId} {p p' : Procedure} {t : NativeType}

theorem Value.Typed.agree (typed : v.Typed p t) (agrees : p.Agrees p') : v.Typed p' t :=
  typed.imp_right fun ⟨storage,register,unit⟩ => ⟨storage,fun r same => agrees.types (register r same),unit⟩

theorem Slot.Typed.agree {slot : Slot} (typed : slot.Typed p t) (agrees : p.Agrees p') : slot.Typed p' t := by
  cases slot with
  | value v => exact Value.Typed.agree typed agrees
  | stack ptr ty => exact ⟨typed.1,typed.2.agree agrees⟩

theorem Continuation.Takes.keep (takes : k.Takes isSealed p t) (agrees : p.Agrees p')
    (admits : ∀ {b}, p.Admits isSealed b → p'.Admits isSealed' b) : k.Takes isSealed' p' t :=
  ⟨admits takes.admitted,takes.storage,fun r there => agrees.types (takes.merged r there),takes.bare⟩

theorem Continuation.Takes.value (takes : k.Takes isSealed p t) : k.value.Typed p t := by
  unfold Continuation.value
  split
  · rename_i r merged
    exact .inr ⟨takes.storage,fun r' same => ValueForm.register.inj same ▸ takes.merged r merged,fun same => by cases same⟩
  · rename_i bare
    exact .inr ⟨takes.storage,fun r same => (by cases same),fun _ => takes.bare bare⟩

theorem TypeFact.Holds.keep (holds : f.Holds isSealed p) (agrees : p.Agrees p')
    (admits : ∀ {b}, p.Admits isSealed b → p'.Admits isSealed' b) (more : isSealed ⊆ isSealed') : f.Holds isSealed' p' := by
  cases f with
  | register r t => exact agrees.types holds
  | registers rs ts =>
    refine Eq.trans (map_congr_left fun r inside => ?_) holds
    have member : p.typeOf r ∈ ts.map some := holds ▸ mem_map_of_mem inside
    obtain ⟨t,-,known⟩ := mem_map.mp member
    rw [← known,agrees.types known.symm]
  | plain r =>
    obtain ⟨known,free⟩ := holds
    obtain ⟨t,known⟩ := ne_none_iff_exists'.mp known
    exact ⟨by simp [agrees.types known],fun t' slot => free t' (agrees.slots known slot)⟩
  | points r t => exact PointsTo.agree holds agrees
  | value v t => exact Value.Typed.agree holds agrees
  | result v ty => exact ⟨holds.1.agree agrees,holds.2⟩
  | slot held t => exact Slot.Typed.agree holds agrees
  | outcome dest t =>
    refine ⟨holds.1,fun r there => ?_⟩
    obtain ⟨known,free⟩ := holds.2 r there
    exact ⟨agrees.types known,fun t' slot => free t' (agrees.slots known slot)⟩
  | calls target signature => exact ⟨holds.1,fun same => agrees.types (holds.2 same)⟩
  | admits b => exact admits holds
  | takes k t => exact Takes.keep holds agrees admits
  | joins k =>
    exact holds.imp (fun ⟨never,inside⟩ => ⟨never,more inside⟩) fun ⟨live,taking⟩ => ⟨live,taking.keep agrees admits⟩
  | header h => exact agrees.header.trans holds

theorem TypeFact.Holds.unseal (before : f.Holds isSealed p) (after : f.Holds isSealed' p')
    (fewer : isSealed ⊆ isSealed') : f.Holds isSealed p' := by
  have admits : ∀ {b}, p'.Admits isSealed' b → p'.Admits isSealed b := fun ⟨outside,there⟩ =>
    ⟨fun inside => outside (fewer inside),there⟩
  have same : p'.Agrees p' := ⟨fun h => h,fun _ h => h,rfl⟩
  cases f with
  | admits b => exact admits after
  | takes k t => exact Takes.keep after same admits
  | joins k =>
    rcases before with never | ⟨live,-⟩
    · exact .inl never
    · rcases after with ⟨never,-⟩ | ⟨-,taking⟩
      · simp [live] at never
      · exact .inr ⟨live,taking.keep same admits⟩
  | _ => exact after

end

/-! ### The regime -/

def TypeContext.exitTy (Γ : TypeContext) : Exit → Option Ty
  | .returning target => Γ.returns target
  | .breaking _ | .continuing _ => some .unit

/-- The blocks that a scope remembers take what is sent to them. -/
structure ScopeState.Typed (isSealed : List BlockId) (p : Procedure) (scope : ScopeState) : Prop where
  handler : ∀ k ∈ scope.handler, k.Takes isSealed p .ptr
  landingPad : ∀ b ∈ scope.landingPad, p.Admits isSealed b

/-- The variables of a scope and the exits through it have the types of its context. -/
structure ScopeState.Suits (isSealed : List BlockId) (p : Procedure) (Γ : TypeContext) (scope : ScopeState) : Prop where
  slots : ∀ {var slot}, scope.slots.get? var = some slot → ∃ t, Γ.locals var = some t ∧ slot.Typed p t
  cleanups : ∀ {exit k}, scope.cleanups.get? exit = some k → ∃ ty, Γ.exitTy exit = some ty ∧ k.Takes isSealed p ty.storage

/-- What a run keeps to inside a function: the blocks that are sealed, the contexts inside the open scopes, by
    number, and the type that the function returns. -/
structure Frame where
  isSealed : List BlockId
  contexts : List TypeContext
  result : NativeType

/-- The function at the cursor is well typed. -/
def typing (F : Frame) : Regime TypeFact where
  good _ p := p.Typed F.isSealed F.result
  fits _ p i scope := scope.Typed F.isSealed p ∧ ∀ {Γ}, F.contexts[i]? = some Γ → scope.Suits F.isSealed p Γ
  opened n := n = F.contexts.length
  sits _ := True
  bears p f := f.Holds F.isSealed p
  good_keep good _ := good
  fits_keep fits _ := fits
  fits_empty m p i := ⟨⟨by simp [empty],by simp [empty]⟩,
    fun _ => ⟨by simp [empty],by simp [empty]⟩⟩

/-- A step that starts where some facts are known keeps functions well typed and gives further facts. -/
abbrev Types (o : Origin) (F : Frame) (needs : List TypeFact) {α : Type} (step : Lower α) (gives : α → List TypeFact) : Prop :=
  ((typing F).discipline o).Keeps o.env needs step gives

section
variable {F F' : Frame} {p p' : Procedure} {m : Module}

theorem typing_fits {i : Nat} {scope : ScopeState} (agrees : p.Agrees p') (same : F'.contexts = F.contexts)
    (admits : ∀ {b}, p.Admits F.isSealed b → p'.Admits F'.isSealed b) (fits : (typing F).fits m p i scope) :
    (typing F').fits m p' i scope := by
  refine ⟨⟨fun k there => (fits.1.handler k there).keep agrees admits,fun b there => admits (fits.1.landingPad b there)⟩,
    fun {Γ} there => ?_⟩
  have suits := fits.2 (same ▸ there)
  refine ⟨fun found => ?_,fun found => ?_⟩
  · obtain ⟨t,bound,typed⟩ := suits.slots found
    exact ⟨t,bound,typed.agree agrees⟩
  · obtain ⟨ty,bound,takes⟩ := suits.cleanups found
    exact ⟨ty,bound,takes.keep agrees admits⟩

theorem typing_evolves (typed : p'.Typed F'.isSealed F'.result) (retains : p.Retains p') (same : F'.contexts = F.contexts)
    (admits : ∀ {b}, p.Admits F.isSealed b → p'.Admits F'.isSealed b) (more : F.isSealed ⊆ F'.isSealed) :
    (typing F).Evolves (typing F') m p p' where
  good := typed
  fits fits := typing_fits retains.toAgrees same admits fits
  opened {n} there := by
    show n = F'.contexts.length
    rw [same]
    exact there
  sits _ := trivial
  bears holds := holds.keep retains.toAgrees admits more
  name := retains.name

theorem Procedure.Retains.admits {isSealed : List BlockId} {b : BlockId} (retains : p.Retains p')
    (admits : p.Admits isSealed b) : p'.Admits isSealed b := by
  obtain ⟨outside,k,found⟩ := admits
  exact ⟨outside,retains.blocks found⟩

theorem Procedure.Advances.regime (advances : Procedure.Advances F.isSealed F.result p p') : (typing F).Evolves (typing F) m p p' :=
  typing_evolves advances.typed advances.retains rfl advances.retains.admits (Subset.refl _)

end

namespace Types
open Regime
variable {α β : Type} {o : Origin} {F : Frame} {needs : List TypeFact} {step : Lower α} {gives : α → List TypeFact}
variable {t : NativeType} {ptr value : Register} {b : Builder} {p : Procedure} {isSealed : List BlockId} {label : String} {block : BlockId}

/-! ### What follows from facts -/

theorem known {s : State} (holds : ((typing F).discipline o).holds s) (known : ∀ f ∈ needs, ((typing F).discipline o).knows s f) :
    ∃ p, s.builder.procedure? = some p ∧ p.Typed F.isSealed F.result ∧ ∀ f ∈ needs, f.Holds F.isSealed p := by
  obtain ⟨p,c,kept⟩ := holds
  exact ⟨p,kept.stands.procedure,kept.good,fun f inside => kept.knows.mp (known f inside)⟩

theorem learn {P : Prop} (sure : ∀ {p}, p.Typed F.isSealed F.result → (∀ f ∈ needs, f.Holds F.isSealed p) → P)
    (keeps : P → Types o F needs step gives) : Types o F needs step gives :=
  Discipline.Keeps.learn (fun holds facts => by
    obtain ⟨p,-,typed,there⟩ := Types.known holds facts
    exact sure typed there) keeps

theorem infer (sure : ∀ {p}, p.Typed F.isSealed F.result → (∀ g ∈ needs, g.Holds F.isSealed p) → f.Holds F.isSealed p)
    (keeps : Types o F (f :: needs) step gives) : Types o F needs step gives :=
  Discipline.Keeps.infer (fun holds facts => by
    obtain ⟨p,here,typed,there⟩ := Types.known holds facts
    exact ⟨p,here,sure typed there⟩) keeps

theorem answer {a : α} (sure : ∀ {p}, p.Typed F.isSealed F.result → (∀ g ∈ needs, g.Holds F.isSealed p) →
    ∀ f ∈ gives a, f.Holds F.isSealed p) : Types o F needs (Pure.pure a) gives where
  lead holds facts run := by
    obtain ⟨rfl,rfl⟩ := runs_pure.mp run
    obtain ⟨p,here,typed,there⟩ := Types.known holds facts
    exact ⟨holds,fun _ old => old,fun f inside => ⟨p,here,sure typed there f inside⟩⟩

/-! ### Steps of construction -/

theorem allocRegister : Types o F needs (build (allocRegister t)) fun r => [.register r t,.plain r] :=
  keeps_build fun {b r b' p c} run here atCursor typed _ facts => by
    obtain ⟨rfl,rfl⟩ := run.allocRegister here
    have own : (p.allocRegister t).2.typeOf ⟨p.nextRegister⟩ = some t := typeOf_taken
    refine ⟨_,rfl,(typed.allocRegister t).regime,fun f inside => ?_⟩
    simp only [mem_cons,not_mem_nil,or_false] at inside
    rcases inside with rfl | rfl
    · exact own
    · exact ⟨by simp [own],fun t' => typed.taken⟩

theorem append {i : Instr} (plain : i.isAlloc = false) (good : ∀ {p : Procedure}, (∀ f ∈ needs, f.Holds F.isSealed p) → i.Typed p) :
    Types o F needs (build (append i)) noFacts :=
  keeps_build fun {b r b' p c} run here atCursor typed _ facts => by
    obtain ⟨k,found,isOpen,rfl⟩ := run.append here atCursor
    have appended : Procedure.Advances F.isSealed F.result p _ := Typed.append typed (c := c) plain (good facts)
    exact ⟨_,rfl,appended.regime,by simp [noFacts]⟩

theorem terminate {e : Terminator} (good : ∀ {p : Procedure}, p.header.result = F.result → (∀ f ∈ needs, f.Holds F.isSealed p) → e.Typed p)
    (known : ∀ x ∈ e.successors, .admits x ∈ needs) : Types o F needs (build (terminate e)) noFacts :=
  keeps_build fun {b r b' p c} run here atCursor typed _ facts => by
    obtain ⟨k,found,isOpen,rfl⟩ := run.terminate here atCursor
    have advances : Procedure.Advances F.isSealed F.result p (p.close c e) :=
      typed.close (good typed.result facts) fun x inside => (facts _ (known x inside)).1
    exact ⟨_,rfl,advances.regime,by simp [noFacts]⟩

theorem define {instr : Register → Instr} (plain : ∀ r, (instr r).isAlloc = false)
    (good : ∀ {p r}, (∀ f ∈ needs, f.Holds F.isSealed p) → p.typeOf r = some t → (instr r).Typed p) :
    Types o F needs (build (define t instr)) fun r => [.register r t,.plain r] :=
  .buildBind allocRegister fun r => .buildThen (append (plain r) fun facts =>
    good (fun f inside => facts f (by simp [inside])) (facts (.register r t) (by simp))) fun _ => .pure (by simp)

section
variable (pointer : TypeFact.points ptr t ∈ needs ∨ TypeFact.register ptr .ptr ∈ needs ∧ TypeFact.plain ptr ∈ needs)
include pointer

theorem pointsTo (facts : ∀ f ∈ needs, f.Holds F.isSealed p) : p.PointsTo ptr t := by
  rcases pointer with slot | ⟨address,free⟩
  · exact facts _ slot
  · exact ⟨facts _ address,fun t' slot => absurd slot ((facts _ free).2 t')⟩

theorem store (stored : TypeFact.register value t ∈ needs) : Types o F needs (build (store ptr value)) noFacts :=
  append rfl fun facts => ⟨t,facts _ stored,pointsTo pointer facts⟩

theorem load : Types o F needs (build (load ptr t)) fun r => [.register r t,.plain r] :=
  define (fun _ => rfl) fun facts own => ⟨own,pointsTo pointer facts⟩

end

theorem typedConst {value : Literal} (same : value = .undef ∨ value.type = t) :
    Types o F needs (build (typedConst value t)) fun r => [.register r t,.plain r] :=
  define (fun _ => rfl) fun _ own => ⟨t,own,same⟩

theorem const {value : Literal} (same : value.type = t) :
    Types o F needs (build (const value)) fun r => [.register r t,.plain r] := by
  subst same
  exact typedConst (.inr rfl)

theorem element {indices : List Nat} (pointer : TypeFact.register ptr .ptr ∈ needs) :
    Types o F needs (build (element ptr indices t)) fun r => [.register r .ptr,.plain r] :=
  define (fun _ => rfl) fun facts own => ⟨own,facts _ pointer⟩

theorem compare {op : CompareOp} (applies : op.AppliesTo t)
    (first : TypeFact.register left t ∈ needs) (second : TypeFact.register right t ∈ needs) :
    Types o F needs (build (compare op left right)) fun r => [.register r .bool,.plain r] :=
  define (fun _ => rfl) fun facts own => ⟨⟨t,applies,facts _ first,facts _ second⟩,own⟩

theorem cast {source : Register} {kind : CastKind} {t' : NativeType} (converts : kind.Converts t' t)
    (operand : TypeFact.register source t' ∈ needs) :
    Types o F needs (build (cast source kind t)) fun r => [.register r t,.plain r] :=
  define (fun _ => rfl) fun facts own => ⟨⟨t',converts,facts _ operand⟩,own⟩

theorem registerType? {r : Register} (here : b.procedure? = some p) (typed : p.typeOf r = some t) : b.registerType? r = some t := by
  rw [Builder.registerType?,here,bind_some]
  exact typed

theorem defineAs {type : Builder → NativeType} {instr : Register → Instr} {r : Register} (given : TypeFact.register r t ∈ needs)
    (same : ∀ {b}, b.registerType? r = some t → type b = t) (plain : ∀ r, (instr r).isAlloc = false)
    (good : ∀ {p r}, (∀ f ∈ needs, f.Holds F.isSealed p) → p.typeOf r = some t → (instr r).Typed p) :
    Types o F needs (build (get >>= fun b => Build.define (type b) instr)) fun r => [.register r t,.plain r] where
  lead {s r s'} holds facts run := by
    obtain ⟨p,here,-,there⟩ := Types.known holds facts
    obtain ⟨b,s₁,got,rest⟩ := runs_build_bind.mp run
    obtain ⟨rfl,rfl⟩ := runs_build_get.mp got
    rw [same (registerType? here (there _ given))] at rest
    exact (define plain good : Types o F needs _ _).lead holds facts rest

theorem binary {op : BinaryOp} (applies : op.AppliesTo t)
    (first : TypeFact.register left t ∈ needs) (second : TypeFact.register right t ∈ needs) :
    Types o F needs (build (Build.binary op left right)) fun r => [.register r t,.plain r] :=
  defineAs first (fun known => by rw [known]; rfl) (fun _ => rfl) fun facts own => ⟨t,applies,facts _ first,facts _ second,own⟩

theorem unary {op : UnaryOp} {operand : Register} (applies : op.AppliesTo t) (given : TypeFact.register operand t ∈ needs) :
    Types o F needs (build (Build.unary op operand)) fun r => [.register r t,.plain r] :=
  defineAs given (fun known => by rw [known]; rfl) (fun _ => rfl) fun facts own => ⟨t,applies,facts _ given,own⟩

theorem bool {value : Bool} : Types o F needs (build (bool value)) fun r => [.register r .bool,.plain r] :=
  const rfl

theorem null : Types o F needs (build null) fun r => [.register r .ptr,.plain r] := const rfl

theorem int {value : Int} : Types o F needs (build (int value t)) fun r => [.register r t,.plain r] := by
  unfold Build.int
  split
  · exact const rfl
  · exact const rfl
  · exact const rfl
  · exact const rfl
  · exact .buildThrow

theorem landingPad : Types o F needs (build landingPad) fun r => [.register r .ptr,.plain r] :=
  define (fun _ => rfl) fun _ own => own

theorem alloc : Types o F needs (build (alloc t)) fun r => [.points r t] :=
  keeps_build fun {b r b' p c} run here atCursor typed _ facts => by
    obtain ⟨rfl,rfl⟩ := run.alloc here
    obtain ⟨advances,points⟩ := addSlot typed (c := p.graph.entry) t
    refine ⟨_,rfl,advances.regime,fun f inside => ?_⟩
    obtain rfl := mem_singleton.mp inside
    exact points

/-! ### Calls -/

theorem resultRegister {signature : Signature} :
    Types o F needs (build (resultRegister signature)) fun dest => [.outcome dest signature.result] := by
  have void : signature.returnsVoid = true ↔ signature.result = .void := by
    unfold Signature.returnsVoid
    cases signature.result <;> simp [NativeType.isVoid]
  unfold Build.resultRegister
  split
  · rename_i empty
    refine answer fun _ _ f inside => ?_
    obtain rfl := mem_singleton.mp inside
    exact ⟨by simp [void.mp empty],by simp⟩
  · rename_i valued
    refine .buildBind allocRegister fun r => answer fun _ facts f inside => ?_
    obtain rfl := mem_singleton.mp inside
    refine ⟨by simp [← void,valued],?_⟩
    rintro r ⟨⟩
    exact ⟨facts (.register r signature.result) (by simp),(facts (.plain r) (by simp)).2⟩

section
variable {site : CallSite} (good : ∀ {p : Procedure}, (∀ f ∈ needs, f.Holds F.isSealed p) →
  site.args.map p.typeOf = site.signature.params.map some ∧
    ∀ {pointer}, site.callee = .indirect pointer → p.typeOf pointer = some site.signature.type)
include good

theorem siteTyped {dest : Option Register} (facts : ∀ f ∈ [.outcome dest site.signature.result] ++ needs, f.Holds F.isSealed p) :
    site.Typed p dest := by
  obtain ⟨args,pointer⟩ := good fun f inside => facts f (mem_append_right _ inside)
  obtain ⟨void,result⟩ := facts _ (.head _)
  exact ⟨args,fun r there => (result r there).1,void,pointer⟩

theorem call : Types o F needs (build (call site)) fun dest => [.outcome dest site.signature.result] :=
  .buildBind resultRegister fun dest => .buildThen (append rfl fun facts => siteTyped good facts) fun _ => .pure (by simp)

theorem invoke {normal unwind : BlockId} (first : .admits normal ∈ needs) (second : .admits unwind ∈ needs) :
    Types o F needs (build (invoke site normal unwind)) fun dest => [.outcome dest site.signature.result] :=
  .buildBind resultRegister fun dest => .buildThen (terminate (fun _ facts => siteTyped good facts)
    (by simp [successors,first,second])) fun _ => .pure (by simp)

end

/-! ### Edges and blocks -/

theorem branch {target : BlockId} (known : .admits target ∈ needs) : Types o F needs (build (branch target)) noFacts :=
  terminate (fun _ _ => trivial) (by simpa [successors] using known)

theorem condBranch {condition : Register} {onTrue onFalse : BlockId} (tested : .register condition .bool ∈ needs)
    (first : .admits onTrue ∈ needs) (second : .admits onFalse ∈ needs) :
    Types o F needs (build (condBranch condition onTrue onFalse)) noFacts :=
  terminate (fun _ facts => facts _ tested) (by simp [successors,first,second])

theorem unreachable : Types o F needs (build unreachable) noFacts :=
  terminate (fun _ _ => trivial) (by simp [successors])

theorem retVoid (void : F.result = .void) : Types o F needs (build (ret none)) noFacts :=
  terminate (fun same _ => same.trans void) (by simp [successors])

theorem ret (valued : F.result ≠ .void) (given : .register value F.result ∈ needs) :
    Types o F needs (build (ret (some value))) noFacts :=
  terminate (fun same facts => by
    show _ ∧ _
    rw [same]
    exact ⟨valued,facts _ given⟩) (by simp [successors])

theorem labelled {result : NativeType} {b' : Builder}
    (run : (labelledBlock label).Runs b block b') (here : b.procedure? = some p) (typed : p.Typed isSealed result) :
    ∃ p', b' = b.put p' ∧ block = p.nextBlock ∧ Procedure.Advances (block :: isSealed) result p p' := by
  have created := typed.createBlock
  obtain ⟨rfl,_,rfl | rfl,rfl⟩ := run.labelledBlock here
  · exact ⟨_,rfl,rfl,created⟩
  · exact ⟨_,rfl,rfl,created.trans (created.typed.relabel (some label))⟩

theorem labelledBlock : Types o F needs (build (labelledBlock label)) fun b => [.admits b] :=
  keeps_build fun {b block b' p c} run here atCursor typed _ facts => by
    obtain ⟨p',rfl,rfl,advances⟩ := labelled run here typed
    have advances' : Procedure.Advances F.isSealed F.result p p' :=
      ⟨advances.typed.unseal (subset_cons_self _ _),advances.retains⟩
    refine ⟨p',rfl,advances'.regime,fun f inside => ?_⟩
    obtain rfl := mem_singleton.mp inside
    obtain ⟨k,found,-⟩ := advances.typed.unreached _ (.head _)
    refine ⟨fun inside => ?_,k,found⟩
    obtain ⟨k',found',-⟩ := unreached typed _ inside
    exact nextBlock_ne typed found' rfl

theorem phi : Types o F needs (build (phi block t)) fun r => [.register r t] :=
  keeps_build fun {b r b' p c} run here atCursor typed _ facts => by
    obtain ⟨rfl,-,rfl⟩ := run.phi here
    have taken := Typed.allocRegister typed t
    have own : (p.allocRegister t).2.typeOf ⟨p.nextRegister⟩ = some t := typeOf_taken
    have added : Procedure.Advances F.isSealed F.result (p.allocRegister t).2 _ :=
      taken.typed.addPhi (b := block) ⟨⟨p.nextRegister⟩,[],t⟩ ⟨own,by simp⟩
    refine ⟨_,rfl,(taken.trans added).regime,fun f inside => ?_⟩
    obtain rfl := mem_singleton.mp inside
    exact added.retains.types own

theorem addIncoming {source : BlockId} {dest : Register} (merged : .register dest t ∈ needs) (given : .register value t ∈ needs) :
    Types o F needs (build (addIncoming block dest source value)) noFacts :=
  keeps_build fun {b r b' p c} run here atCursor typed _ facts => by
    obtain rfl := run.addIncoming here
    have advances : Procedure.Advances F.isSealed F.result p _ :=
      Typed.addIncoming typed (b := block) source (facts _ merged) (facts _ given)
    exact ⟨_,rfl,advances.regime,by simp [noFacts]⟩

/-! ### Values and continuations -/

theorem ofRegister (r : Register) (ty : Ty) (same : ty.storage = t) (given : .register r t ∈ needs)
    (keeps : Types o F (.value (.ofRegister r ty) t :: needs) step gives) : Types o F needs step gives :=
  infer (f := .value _ _) (fun _ facts => .inr ⟨same,fun _ here => ValueForm.register.inj here ▸ facts _ given,
    fun other => by cases other⟩) keeps

theorem unitValue (keeps : Types o F (.value .unit .ptr :: needs) step gives) : Types o F needs step gives :=
  infer (f := .value _ _) (fun _ _ => .inr ⟨rfl,(by rintro r ⟨⟩),fun _ => rfl⟩) keeps

theorem materialize (given : .value v t ∈ needs) : Types o F needs (materialize v) fun r => [.register r t] := by
  unfold Lower.materialize
  split
  · rename_i r form
    refine answer fun _ facts f inside => ?_
    obtain rfl := mem_singleton.mp inside
    rcases facts _ given with ended | ⟨-,typed,-⟩
    · simp [Value.isUnreachable,form] at ended
    · exact typed r form
  · rename_i form
    refine learn (P := t = .ptr) (fun _ facts => ?_) fun pointer => ?_
    · rcases facts _ given with ended | ⟨-,-,unit⟩
      · simp [Value.isUnreachable,form] at ended
      · exact unit form
    · subst pointer
      exact .andThen (keeps_quiet fun run => run.globalOf) fun _ => (const (t := .ptr) rfl).mono (Subset.refl _) (by simp)
  · exact .breach

theorem newContinuation {ty : Ty} : Types o F needs (newContinuation ty label) fun k => [.takes k ty.storage] := by
  refine .bind labelledBlock fun block => ?_
  split
  · rename_i valueless
    refine answer fun _ facts f inside => ?_
    obtain rfl := mem_singleton.mp inside
    have pointer : ty.storage = .ptr := by
      cases ty with
      | primitive kind => simp [Ty.isValueless,Ty.isUnit,Ty.isNever] at valueless
      | _ => rfl
    exact ⟨facts (.admits block) (by simp),rfl,by simp,fun _ => pointer⟩
  · refine .bind phi fun r => answer fun _ facts f inside => ?_
    obtain rfl := mem_singleton.mp inside
    refine ⟨facts (.admits block) (by simp),rfl,?_,by simp⟩
    rintro r' ⟨⟩
    exact facts (.register r ty.storage) (by simp)

theorem jump (known : .takes k t ∈ needs) (given : .value v t ∈ needs) :
    Types o F needs (jump k v) noFacts := by
  refine infer (f := .admits k.block) (fun _ facts => (facts _ known).admitted) ?_
  refine .andThen .isTerminated fun ended => ?_
  split
  · exact .done
  · refine .andThen keeps_insertionBlock fun source => ?_
    split
    · exact branch (by simp)
    · rename_i r merged
      refine infer (f := .register r t) (fun _ facts => (facts (.takes k t) (by simp [known])).merged r merged) ?_
      exact .bind (materialize (t := t) (by simp [given])) fun incoming => .buildThen (branch (by simp)) fun _ =>
        addIncoming (t := t) (by simp) (by simp)

theorem enterBlock : Types o F needs (enterBlock block) noFacts := by
  refine .andThen (keeps_switchTo fun _ => trivial) fun _ => .get fun s => ?_
  dsimp only
  split
  · exact .andThen unreachable fun _ => .done
  · exact .done

theorem enter_sealed {s s' : State} {live : Bool} (holds : ((typing F).discipline o).holds s)
    (inside : block ∈ F.isSealed) (run : Runs (Lower.enterBlock block) o.env s live s') : live = false := by
  obtain ⟨p,c,kept⟩ := holds
  obtain ⟨k,found,bare⟩ := unreached kept.good block inside
  obtain ⟨_,s₁,moved,run⟩ := runs_bind.mp run
  obtain ⟨b,built,rfl⟩ := runs_build.mp moved
  obtain rfl := runs_switchTo.mp built
  obtain ⟨_,_,got,run⟩ := runs_bind.mp run
  obtain ⟨rfl,rfl⟩ := runs_get.mp got
  have here : Builder.block? { s.builder with cursor := some block } block = some k := by
    show (s.builder.procedure?).bind _ = _
    rw [kept.stands.procedure,bind_some,found]
  dsimp only at run
  rw [here,map_some,bare] at run
  split at run
  · obtain ⟨_,s₂,-,rest⟩ := runs_bind.mp run
    exact (runs_pure.mp rest).1
  · exact (runs_pure.mp run).1

end Types

end BlockLowering
