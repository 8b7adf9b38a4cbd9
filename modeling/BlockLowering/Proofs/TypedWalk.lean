import BlockLowering.Proofs.TypedCalls
/-!
Lowering keeps functions well typed. Every construct brings the values of its ways to complete to one
continuation of its own type, and every function of the pass gives values of the type of its expression if the
function for the children does.
-/
namespace BlockLowering
open List Lower NativeType ScopeKind Ty
variable {merge : Option Continuation} {statement : Statement Expr} {finalizer : Expr} {exception : Register} {branches : List (Branch Expr)}
  {statements : List (Statement Expr)} {clauses : List (CatchClause Expr)} {handler : Continuation}

/-- A branch is well typed, and its result fits the conditional. -/
structure Branch.Typed (decls : Declarations) (Γ : TypeContext) (ty : Ty) (branch : Branch Expr) : Prop where
  condition : branch.condition.WellTyped decls Γ
  boolean : bool.Accepts branch.condition.ty
  result : branch.result.WellTyped decls Γ
  fits : ty.Accepts branch.result.ty

/-- A clause is well typed where its parameter is in scope, and its result fits the guarded expression. -/
structure CatchClause.Typed (decls : Declarations) (Γ : TypeContext) (ty : Ty) (clause : CatchClause Expr) : Prop where
  body : ∃ locals, TypeContext.Extends Γ.locals locals ∧ locals clause.parameter = some clause.ty.storage ∧
    clause.body.WellTyped decls { Γ with locals }
  fits : ty.Accepts clause.body.ty

namespace Types
open Regime
variable {o : Origin} {F : Frame} {needs : List TypeFact} {chain : Chain} {Γ : TypeContext} {recurse : Recurse}
variable {ty : Ty} {loop : LoopId} {condition body : Expr} {result : Continuation}

/-! ### Steps between children -/

theorem arrive {v : Value} {given required : Ty}
    (known : ∀ k ∈ merge, .takes k required.storage ∈ needs) (result : .result v given ∈ needs) (fits : required.Accepts given) :
    Types o F needs (arrive merge v) noFacts := by
  unfold Lower.arrive
  split
  · rename_i k
    exact accepted v required result fits (jump (.tail _ (known k rfl)) (.head _))
  · exact .done

theorem fallthrough {merge : Continuation} (takes : .takes merge ty.storage ∈ needs) :
    Types o F needs (fallthrough merge ty) fun v => [.value v ty.storage] := by
  unfold Lower.fallthrough
  split
  · exact .bind (typedConst (.inl rfl)) fun r => ofRegister r ty rfl (by simp) (.pure (by simp))
  · rename_i bare
    refine learn (P := ty.storage = .ptr) (fun _ facts => (facts _ takes).bare bare) fun pointer => ?_
    rw [pointer]
    exact unitValue (.pure (by simp))

theorem getLast?_map_ty {rest : List (Statement Expr)} :
    (((statement :: rest).getLast?.map Statement.ty).getD ty) = (rest.getLast?.map Statement.ty).getD statement.ty := by
  cases rest with
  | nil => rfl
  | cons next rest => simp [getLast?_cons]

theorem withHandler {kind : ScopeKind} {step : Chain → Lower Unit} (here : Around o F needs chain Γ)
    (turns : kind.Turns o.env.decls F.result Γ Γ) (facts : kind.facts ⊆ needs)
    (inside : ∀ {F' number}, Around o F' needs (⟨number,kind⟩ :: chain) Γ → Types o F' needs (step (⟨number,kind⟩ :: chain)) noFacts) :
    Types o F needs (withHandler kind chain step) fun handler => handler.toList.map (TypeFact.takes · .ptr) := by
  refine inScope here Γ turns facts fun inner => .andThen (inside inner) fun _ => .bind scopeState fun state => .pure ?_
  exact fun _ there => mem_append_left _ (mem_append_right _ there)

theorem runFinalizer (preserved : Preserved recurse) {normal : Continuation} (around : Around o F needs chain Γ)
    (finalizes : finalizer.WellTyped o.env.decls Γ) (joins : .joins normal ∈ needs) : Types o F needs (do
      let value ← Lower.resumeAt normal
      if value.isUnreachable then return value
      match ← eval recurse chain finalizer with
      | some _ => return value
      | none => return .unreachable normal.ty) fun v => [.result v normal.ty] := by
  refine .bind (resumeAt joins) fun v => ?_
  split
  · exact .pure (by simp)
  · exact evalThen preserved around.more finalizes (.inr rfl) noResult fun _ _ _ => .pure (by simp)

variable (preserved : Preserved recurse) (here : Around o F needs chain Γ)
include preserved here

/-! ### Exits -/

theorem lowerReturn {target : FunctionId} {value : Expr} {T : Ty} (enclosing : Γ.returns target = some T)
    (typed : value.WellTyped o.env.decls Γ) (fits : T.Accepts value.ty) :
    Types o F needs (lowerReturn recurse chain target value) fun v => [.result v .never] := by
  refine evalThen preserved here typed fits.native noResult fun v reached live => ?_
  exact .andThen (leave preserved here.cons (T := T) enclosing (fits.storage live).1 reached (by simp)) fun _ => noResult

theorem lowerBreak : Types o F needs (lowerBreak recurse chain loop) fun v => [.result v .never] :=
  .andThen (unitValue (leave preserved here.cons (T := .unit) rfl rfl rfl (.head _))) fun _ => noResult

theorem lowerContinue : Types o F needs (lowerContinue recurse chain loop) fun v => [.result v .never] :=
  .andThen (unitValue (leave preserved here.cons (T := .unit) rfl rfl rfl (.head _))) fun _ => noResult

theorem lowerRaise {exception : Expr} (typed : exception.WellTyped o.env.decls Γ) (object : ptr.Accepts exception.ty) :
    Types o F needs (lowerRaise recurse chain exception) fun v => [.result v .never] := by
  refine evalThen preserved here typed object noResult fun v _ _ => .bind (materialize (t := .ptr) (by simp)) fun r => ?_
  exact .andThen (throwException (by simp)) fun _ => noResult

/-! ### Conditionals -/

theorem lowerBranches
    (typed : ∀ branch ∈ branches, branch.Typed o.env.decls Γ ty) (known : ∀ k ∈ merge, .takes k ty.storage ∈ needs) :
    Types o F needs (lowerBranches recurse chain merge branches) noFacts := by
  induction branches generalizing needs with
  | nil => exact .done
  | cons branch rest ih =>
    have own := typed branch (.head _)
    unfold lowerBranches
    split
    · refine .bind (preserved here own.result) fun v => ?_
      exact arrive (fun k inside => mem_append_right _ (known k inside)) (.head _) own.fits
    · refine evalThen preserved here own.condition own.boolean (.done) fun v _ _ => ?_
      refine .bind (materialize (t := .bool) (by simp)) fun condition => .bind labelledBlock fun taken => .bind labelledBlock fun next => ?_
      refine .andThen (.buildThen (condBranch (by simp) (by simp) (by simp)) fun _ => (keeps_switchTo fun _ => trivial)) fun _ => ?_
      refine .bind (preserved here.cons.more.more.more own.result) fun v' => ?_
      refine .andThen (arrive (fun k inside => by simp [known k inside]) (.head _) own.fits) fun _ =>
        .andThen (keeps_switchTo fun _ => trivial) fun _ => ?_
      exact ih here.cons.more.more.more.more (fun b inside => typed b (.tail _ inside))
        fun k inside => by simp [known k inside]

theorem lowerChoice (typed : ∀ branch ∈ branches, branch.Typed o.env.decls Γ ty)
    (exhaustive : ty.isNever = true → isExhaustive branches = true) :
    Types o F needs (lowerChoice recurse chain branches ty) fun v => [.result v ty] := by
  unfold Lower.lowerChoice
  split
  · refine .andThen (lowerBranches preserved here typed (by simp)) fun _ => .andThen .isTerminated fun ended => ?_
    split
    · exact .andThen unreachable fun _ => noResult
    · exact noResult
  · rename_i completes
    have live : ty.isNever = false := by
      cases never : ty.isNever with
      | false => rfl
      | true => exact absurd (by simp [never,exhaustive never]) completes
    refine joinedAt ⟨live,rfl⟩ fun merge same => ?_
    refine .andThen (lowerBranches preserved here.cons.cons typed (by simp)) fun _ => ?_
    refine .andThen .isTerminated fun ended => ?_
    split
    · refine .bind (fallthrough (.head _)) fun v => .andThen (jump (t := ty.storage) (by simp) (by simp)) fun _ => ?_
      exact same ▸ resumeAt (by simp)
    · exact same ▸ resumeAt (by simp)

/-! ### Loops -/

theorem testLoop {body : BlockId} {exit : Continuation} (typed : condition.WellTyped o.env.decls Γ)
    (boolean : NativeType.bool.Accepts condition.ty) (inside : .admits body ∈ needs) (behind : .takes exit .ptr ∈ needs) :
    Types o F needs (testLoop recurse chain condition body exit) noFacts := by
  refine infer (f := .admits exit.block) (fun _ facts => (facts _ behind).admitted) ?_
  refine evalThen preserved here.cons typed boolean (.done) fun v _ _ => ?_
  refine .bind (materialize (t := .bool) (by simp)) fun r => ?_
  exact .andThen (condBranch (by simp) (by simp [inside]) (by simp)) fun _ => .done

theorem lowerLoopBody {block check : BlockId} (typed : body.WellTyped o.env.decls Γ) (known : .admits check ∈ needs) :
    Types o F needs (lowerLoopBody recurse chain body block check) noFacts :=
  .andThen (keeps_switchTo fun _ => trivial) fun _ => evalThen preserved here typed (.inr rfl) (.done) fun _ _ _ =>
    branch (by simp [known])

theorem lowerWhile (tested : condition.WellTyped o.env.decls Γ)
    (boolean : NativeType.bool.Accepts condition.ty) (typed : body.WellTyped o.env.decls Γ) :
    Types o F needs (lowerWhile recurse chain loop condition body) fun v => [.result v .unit] := by
  refine .bind labelledBlock fun check => .bind labelledBlock fun block => joinedAt (t := .ptr) ⟨rfl,rfl⟩ fun exit same => ?_
  refine .andThen (branch (by simp)) fun _ => .andThen (inScope here.more.more.cons.cons Γ rfl (by simp [facts])
    fun inner => ?_) fun _ => same ▸ resumeAt (by simp)
  refine .andThen (keeps_switchTo fun _ => trivial) fun _ => .andThen (testLoop preserved inner tested boolean (by simp) (by simp)) fun reached => ?_
  split
  · exact lowerLoopBody preserved inner typed (by simp)
  · exact .done

theorem lowerRepeat (typed : body.WellTyped o.env.decls Γ)
    (tested : condition.WellTyped o.env.decls Γ) (boolean : NativeType.bool.Accepts condition.ty) :
    Types o F needs (lowerRepeat recurse chain loop body condition) fun v => [.result v .unit] := by
  refine .bind labelledBlock fun block => .bind labelledBlock fun check => joinedAt (t := .ptr) ⟨rfl,rfl⟩ fun exit same => ?_
  refine .andThen (branch (by simp)) fun _ => .andThen (inScope here.more.more.cons.cons Γ rfl (by simp [facts])
    fun inner => ?_) fun _ => same ▸ resumeAt (by simp)
  refine .andThen (lowerLoopBody preserved inner typed (by simp)) fun _ => .andThen enterBlock fun live => ?_
  split
  · exact .andThen (testLoop preserved inner tested boolean (by simp) (by simp)) fun _ => .done
  · exact .done

/-! ### Sequences and inlined bodies -/

theorem lowerStatement (operands : ∀ e ∈ statement.operand?, e.WellTyped o.env.decls Γ)
    (declared : statement.Fits Γ.locals) :
    Types o F needs (lowerStatement recurse chain statement) fun v => [.result v statement.ty] := by
  cases statement with
  | expression e => exact preserved here (operands e rfl)
  | «variable» var name ty isMutable initializer =>
    exact .andThen (lowerDeclaration preserved here declared.1 operands declared.2) fun _ => unitResult

theorem lowerStatements {lastTy : Ty} {last : Value}
    (operands : ∀ statement ∈ statements, ∀ e ∈ statement.operand?, e.WellTyped o.env.decls Γ)
    (declared : ∀ statement ∈ statements, statement.Fits Γ.locals) (given : .result last lastTy ∈ needs)
    (fits : ty = .unit ∨ ty.Accepts ((statements.getLast?.map Statement.ty).getD lastTy)) :
    Types o F needs (lowerStatements recurse chain ty last statements) fun v => [.result v ty] := by
  induction statements generalizing needs last lastTy with
  | nil =>
    refine .andThen .isTerminated fun ended => ?_
    split
    · exact noResult
    · rename_i goesOn
      split
      · rename_i isUnit
        obtain rfl : ty = .unit := by cases ty <;> simp_all [Ty.isUnit]
        exact unitResult
      · rename_i other
        have fits : ty.Accepts lastTy := fits.resolve_left fun same => other (by simp [same,isUnit])
        refine learn (P := ty.StoredAs lastTy.storage) (fun _ facts => fits.storage ?_) fun stored => ?_
        · cases never : lastTy.isNever with
          | false => rfl
          | true => exact absurd (by simp [(facts _ given).2 never]) goesOn
        · refine infer (f := .value last lastTy.storage) (fun _ facts => (facts _ given).1) ?_
          exact retype last ty stored.2 (by simp) (result stored (by simp))
  | cons statement rest ih =>
    refine .andThen .isTerminated fun ended => ?_
    split
    · exact noResult
    · refine .bind (lowerStatement preserved here (operands statement (.head _))
        (declared statement (.head _))) fun v => ?_
      exact ih here.more (fun s inside => operands s (.tail _ inside))
        (fun s inside => declared s (.tail _ inside)) (.head _) (getLast?_map_ty ▸ fits)

theorem lowerSequence {locals : VarId → Option NativeType}
    (extends' : TypeContext.Extends Γ.locals locals)
    (operands : ∀ statement ∈ statements, ∀ e ∈ statement.operand?, e.WellTyped o.env.decls { Γ with locals })
    (declared : ∀ statement ∈ statements, statement.Fits locals)
    (last : ty = .unit ∨ ty.Accepts ((statements.getLast?.map Statement.ty).getD .unit)) :
    Types o F needs (lowerSequence recurse chain statements ty) fun v => [.result v ty] := by
  refine inScope here { Γ with locals } ⟨extends',rfl,rfl⟩ (nil_subset _) fun inner => ?_
  refine infer (f := .result .unit .unit) (fun _ _ => ⟨.inr ⟨rfl,(fun r same => by cases same),fun _ => rfl⟩,?_⟩) ?_
  · simp [isNever]
  · exact lowerStatements preserved inner.cons operands declared (.head _) last

theorem lowerInlined {function : FunctionId} (typed : body.WellTyped o.env.decls (Γ.inline function ty)) (fits : ty.Accepts body.ty) :
    Types o F needs (lowerInlined recurse chain function body ty) fun v => [.result v ty] := by
  refine joined here fun isSealed exit same around => ?_
  subst same
  refine .andThen (inScope around (Γ.inline function exit.ty) rfl (by simp [facts]) fun inner => ?_) fun _ =>
    resumeAt (by simp)
  refine evalThen preserved inner typed fits.native (.done) fun v _ live => ?_
  exact taking (fits.storage live).1 (by simp) (jump (t := exit.ty.storage) (by simp) (by simp))

/-! ### Guarded expressions -/

theorem lowerClauseBody {clause : CatchClause Expr}
    (typed : clause.Typed o.env.decls Γ result.ty) (object : clause.ty.storage = .ptr) (given : .register exception .ptr ∈ needs)
    (joins : .joins result ∈ needs) : Types o F needs (lowerClauseBody recurse chain clause exception result) noFacts := by
  obtain ⟨⟨locals,extends',parameter,body⟩,fits⟩ := typed
  refine inScope here { Γ with locals } ⟨extends',rfl,rfl⟩ (nil_subset _) fun inner => ?_
  refine ofRegister exception clause.ty object given ?_
  refine infer (f := .slot (.value (.ofRegister exception clause.ty)) .ptr) (fun _ facts =>
    facts (.value (.ofRegister exception clause.ty) .ptr) (by simp)) ?_
  refine .andThen (declareVariable inner.cons.cons (t := .ptr) (object ▸ parameter) (by simp)) fun _ => ?_
  exact .bind (preserved inner.cons.cons body) fun v => deliver (by simp [joins]) (.head _) fits

theorem lowerClauses
    (typed : ∀ clause ∈ clauses, clause.Typed o.env.decls Γ result.ty) (given : .register exception .ptr ∈ needs)
    (joins : .joins result ∈ needs) : Types o F needs (lowerClauses recurse chain exception result clauses) noFacts := by
  induction clauses generalizing needs with
  | nil => exact throwException given
  | cons clause rest ih =>
    have own := typed clause (.head _)
    unfold lowerClauses
    split
    · rename_i isAny
      have object : clause.ty.storage = .ptr := by cases type : clause.ty <;> simp_all [Ty.isAny,Ty.storage]
      exact lowerClauseBody preserved here own object given joins
    · split
      · exact .throw
      · rename_i cls isClass
        have object : clause.ty.storage = .ptr := by cases type : clause.ty <;> simp_all [class?,storage]
        refine .bind descriptorAddress fun descriptor => ?_
        refine .bind (callSupport .isInstance [.ptr,.ptr] .bool rfl (by simp [given])) fun dest => ?_
        refine .bind (produced (t := .bool) (by simp)) fun test => .bind labelledBlock fun body => .bind labelledBlock fun next => ?_
        refine .andThen (.buildThen (condBranch (by simp) (by simp) (by simp)) fun _ => (keeps_switchTo fun _ => trivial)) fun _ => ?_
        refine .andThen (lowerClauseBody preserved here.more.more.more.more.more own object (by simp [given]) (by simp [joins]))
          fun _ => .andThen (keeps_switchTo fun _ => trivial) fun _ => ?_
        exact ih here.more.more.more.more.more (fun c inside => typed c (.tail _ inside)) (by simp [given])
          (by simp [joins])

theorem lowerHandler
    (typed : ∀ clause ∈ clauses, clause.Typed o.env.decls Γ result.ty) (takes : .takes handler .ptr ∈ needs)
    (joins : .joins result ∈ needs) : Types o F needs (lowerHandler recurse chain clauses result handler) noFacts := by
  refine .andThen enterBlock fun live => ?_
  split
  · refine infer (f := .value handler.value .ptr) (fun _ facts => (facts _ takes).value) ?_
    refine .bind (materialize (t := .ptr) (by simp)) fun exception => ?_
    exact lowerClauses preserved here.cons.more typed (by simp) (by simp [joins])
  · exact .done

section
variable {body : Expr} {clauses : List (CatchClause Expr)} {ty : Ty}

theorem lowerCatching (typed : body.WellTyped o.env.decls Γ) (fits : ty.Accepts body.ty)
    (handled : ∀ clause ∈ clauses, clause.Typed o.env.decls Γ ty) :
    Types o F needs (lowerCatching recurse chain body clauses ty) fun v => [.result v ty] := by
  unfold Lower.lowerCatching
  split
  · refine .bind (preserved here typed) fun v => answer fun {p} _ facts f inside => ?_
    obtain rfl := mem_singleton.mp inside
    obtain ⟨stored,ended⟩ := facts (.result v body.ty) (by simp)
    rcases fits with never | ⟨live,same⟩
    · exact ⟨.inl (ended never),fun _ => ended never⟩
    · exact ⟨(same ▸ stored : v.Typed p ty.storage).withType rfl,by simp [live]⟩
  · refine joined here fun isSealed result same around => ?_
    subst same
    refine .bind (withHandler around rfl (nil_subset _) fun inside => .bind (preserved inside typed) fun v =>
      deliver (by simp) (.head _) fits) fun handler => ?_
    split
    · exact resumeAt (by simp)
    · refine .andThen (lowerHandler preserved around.more handled (by simp) (by simp)) fun _ => ?_
      exact resumeAt (by simp)

theorem lowerRethrow (typed : finalizer.WellTyped o.env.decls Γ)
    (takes : .takes handler .ptr ∈ needs) : Types o F needs (lowerRethrow recurse chain finalizer handler) noFacts := by
  refine .andThen keeps_log fun _ => keeps_atBlock (fun _ => trivial) ?_
  refine infer (f := .value handler.value .ptr) (fun _ facts => (facts _ takes).value) ?_
  refine .bind (materialize (t := .ptr) (by simp)) fun exception => ?_
  exact evalThen preserved here.cons.more typed (.inr rfl) (.done) fun _ _ _ => throwException (by simp)

theorem lowerFinalized (typed : body.WellTyped o.env.decls Γ) (fits : ty.Accepts body.ty)
    (handled : ∀ clause ∈ clauses, clause.Typed o.env.decls Γ ty) (finalizes : finalizer.WellTyped o.env.decls Γ) :
    Types o F needs (Lower.lowerFinalized recurse chain body clauses finalizer ty) fun v => [.result v ty] := by
  refine joined here fun isSealed normal same around => ?_
  subst same
  refine .bind (withHandler around ⟨rfl,finalizes⟩ (nil_subset _) fun inside =>
    .bind (lowerCatching preserved inside typed fits handled) fun v =>
      deliver (by simp) (.head _) (.refl _)) fun handler => ?_
  split
  · refine .andThen (lowerRethrow preserved around.more finalizes (by simp)) fun _ => ?_
    exact runFinalizer preserved around.more finalizes (by simp)
  · exact runFinalizer preserved around.more finalizes (by simp)

theorem lowerGuarded {finalizer : Option Expr} (typed : body.WellTyped o.env.decls Γ) (fits : ty.Accepts body.ty)
    (handled : ∀ clause ∈ clauses, clause.Typed o.env.decls Γ ty) (finalizers : ∀ e ∈ finalizer, e.WellTyped o.env.decls Γ) :
    Types o F needs (lowerGuarded recurse chain body clauses finalizer ty) fun v => [.result v ty] := by
  unfold Lower.lowerGuarded
  split
  · exact lowerCatching preserved here typed fits handled
  · rename_i e
    exact lowerFinalized preserved here typed fits handled (finalizers e rfl)

end

/-! ### Expressions -/

theorem stepNode {e : Expr} (typed : e.WellTyped o.env.decls Γ) :
    Types o F needs (stepNode recurse chain e) fun v => [.result v e.ty] := by
  cases typed with
  | call declared operands fits folded => exact lowerCall preserved here declared operands fits folded
  | delegate declared operands own self alone supplied =>
    exact lowerDelegate preserved here declared operands own self alone supplied
  | readVar bound stored => exact readVariable here bound stored
  | writeVar bound typed fits => exact lowerWriteVar preserved here bound typed fits
  | readField declared typed object self stored => exact lowerReadField preserved here declared typed object self stored
  | writeField declared typed object self assigned fits =>
    exact lowerWriteField preserved here declared typed object self assigned fits
  | constant stored => exact lowerConstant stored
  | returnFrom enclosing typed fits => exact lowerReturn preserved here enclosing typed fits
  | choice conditions boolean results fits exhaustive =>
    exact lowerChoice preserved here (fun b inside => ⟨conditions b inside,boolean b inside,results b inside,fits b inside⟩)
      exhaustive
  | raise typed object => exact lowerRaise preserved here typed object
  | guarded typed fits extend parameters handlers handled finalizers =>
    exact lowerGuarded preserved here typed fits (fun clause inside => ⟨⟨_,extend clause inside,parameters clause inside,
      handlers clause inside⟩,handled clause inside⟩) finalizers
  | inlined typed fits => exact lowerInlined preserved here typed fits
  | sequence extend operands declared last => exact lowerSequence preserved here extend operands declared last
  | whileLoop tested boolean typed => exact lowerWhile preserved here tested boolean typed
  | repeatLoop typed tested boolean => exact lowerRepeat preserved here typed tested boolean
  | arrayLiteral typed elements arrays stored => exact lowerArrayLiteral preserved here typed elements arrays stored
  | breakFrom => exact lowerBreak preserved here
  | continueWith => exact lowerContinue preserved here
  | singleton created stored => exact lowerSingleton here created stored
  | functionRef stored => exact lowerFunctionRef stored
  | typeOp typed fits => exact lowerTypeOp preserved here typed fits

end Types

theorem preserved_lowerWithin (depth : Nat) : Types.Preserved (lowerWithin depth) := by
  induction depth with
  | zero => exact fun _ _ => .breach
  | succ depth ih =>
    intro o F needs chain Γ e here typed
    refine .andThen .isTerminated fun ended => ?_
    split
    · exact Types.noResult
    · exact .andThen Regime.keeps_log fun _ => Types.stepNode ih here typed

theorem preserved_lowerExpr : Types.Preserved lowerExpr := fun here typed => preserved_lowerWithin _ here typed

end BlockLowering
