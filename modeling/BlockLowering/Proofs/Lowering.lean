import BlockLowering.Pass.Program
import BlockLowering.Proofs.Guarding
import BlockLowering.Proofs.Recursion
/-!
Expressions and function bodies. Two passes that agree on the children of a node agree on the node, and the bound
that an expression starts with is large enough for the whole tree.
-/
namespace BlockLowering
open Lower List Value BlockLowering.Expr Safe Chain Build
variable {pending : List (FieldId × Expr)} {bindings : List (ParameterDecl × Register)} {returnsVoid : Bool}

/-! ### One step -/

namespace Lower
variable {env : Environment} {roots : Expr → Prop} {r r' : Recurse} {chain : Chain} {n : Nat} {needs : List Register} {e : Expr}

theorem Lowers.lowerGuarded (lowers : Lowers env roots n r r') {body : Expr} {clauses : List (CatchClause Expr)}
    {finalizer : Option Expr} {ty : Ty} (small : chain.weight + nodeSize (.guarded body clauses finalizer) ≤ n)
    (within : ∀ c ∈ (Node.guarded body clauses finalizer).children, Expr.Within roots c) :
    Carries env roots r r' chain needs (fun r => lowerGuarded r chain body clauses finalizer ty) registers Completes := by
  simp only [nodeSize] at small
  have withinBody : Expr.Within roots body := within _ (.head _)
  have withinClause : ∀ clause ∈ clauses, Expr.Within roots clause.body := fun clause inside =>
    within _ (.tail _ (mem_append_left _ (mem_map_of_mem inside)))
  cases finalizer with
  | none =>
    refine lowers.lowerCatching ⟨by omega,withinBody⟩ fun clause inside => ⟨?_,withinClause clause inside⟩
    have := size_le_clausesSize inside
    omega
  | some finalizer =>
    have smaller : finalizer.size ≤ optionSize (some finalizer) := size_le_optionSize rfl
    have withinFinalizer : Expr.Within roots finalizer :=
      within _ (.tail _ (mem_append_right _ (mem_singleton_self _)))
    refine lowers.lowerFinalized (fun m => ⟨?_,withinBody⟩) (fun clause inside m => ⟨?_,withinClause clause inside⟩)
      ⟨by omega,withinFinalizer⟩
    · simp only [weight]
      omega
    · have := size_le_clausesSize inside
      simp only [weight]
      omega

theorem Lowers.stepNode (lowers : Lowers env roots n r r') (within : Expr.Within roots e)
    (small : chain.weight + nodeSize e.node ≤ n) :
    Carries env roots r r' chain needs (fun r => stepNode r chain e) registers Completes := by
  have child : ∀ {c}, c ∈ e.node.children → Admits roots n chain c := fun inside =>
    ⟨Nat.le_trans (Nat.add_le_add_left (size_le_nodeSize inside) _) small,within.child inside⟩
  have room : chain.weight ≤ n := Nat.le_trans (Nat.le_add_right ..) small
  unfold Lower.stepNode
  generalize same : e.node = node at child small
  cases node with
  | call call => exact lowers.lowerCall fun c inside => child inside
  | delegate constructor arguments => exact lowers.lowerDelegate fun c inside => child inside
  | readVar var => exact carries_readVariable
  | writeVar var value => exact lowers.lowerWriteVar (child (mem_singleton_self _))
  | readField field receiver => exact lowers.lowerReadField fun c inside => child (Option.mem_toList.mpr inside)
  | writeField field receiver value =>
    exact lowers.lowerWriteField (fun c inside => child (mem_append_left _ (Option.mem_toList.mpr inside)))
      (child (mem_append_right _ (mem_singleton_self _)))
  | constant value => exact carries_lowerConstant
  | returnFrom target value => exact lowers.lowerReturn (child (mem_singleton_self _))
  | choice branches =>
    exact lowers.lowerChoice within same fun branch inside =>
      ⟨child (mem_flatMap.mpr ⟨branch,inside,.head _⟩),
        child (mem_flatMap.mpr ⟨branch,inside,.tail _ (mem_singleton_self _)⟩)⟩
  | raise exception => exact lowers.lowerRaise (child (mem_singleton_self _))
  | guarded body clauses finalizer => exact lowers.lowerGuarded small fun c inside => (child inside).within
  | inlined function body => exact lowers.lowerInlined (child (mem_singleton_self _))
  | sequence statements =>
    exact lowers.lowerSequence fun statement inside c member => child (mem_flatMap.mpr ⟨statement,inside,member⟩)
  | whileLoop loop condition body =>
    exact lowers.lowerWhile (child (.head _)) (child (.tail _ (mem_singleton_self _)))
  | repeatLoop loop body condition =>
    exact lowers.lowerRepeat (child (.head _)) (child (.tail _ (mem_singleton_self _)))
  | arrayLiteral elementType items => exact lowers.lowerArrayLiteral fun item inside => child (mem_map_of_mem inside)
  | breakFrom loop => exact lowers.depart room
  | continueWith loop => exact lowers.depart room
  | singleton cls => exact carries_lowerSingleton
  | functionRef function => exact carries_lowerFunctionRef
  | typeOp operator operand target => exact lowers.lowerTypeOp (child (mem_singleton_self _))

theorem Lowers.step {depth : Nat} (lowers : Lowers env roots n (lowerWithin depth) r') :
    Lowers env roots (n + 1) (lowerWithin (depth + 1)) (step r') where
  agree {chain e o available ahead known live s} admits stance := by
    have small : chain.weight + nodeSize e.node ≤ n := by
      have small := admits.small
      obtain ⟨node,ty,location⟩ := e
      exact Nat.le_of_succ_le_succ small
    show Agree env (lowerWithin depth) r' (fun r => Lower.step r chain e) s _
    refine .after rfl ?_
    cases ended : s.builder.isTerminated with
    | true => exact Safe.agree (stance.dead (stance.isTerminated.mp ended) (not_completes_unreachable _))
    | false =>
      have alive := stance.alive ended
      refine .after rfl ?_
      exact (lowers.stepNode admits.within small).agree ((stance.logged _).congr (iff_of_true alive trivial)) (nil_subset _)
  bounded _ _ := ⟨depth + 1,rfl⟩

theorem lowers_zero : Lowers env roots 0 (lowerWithin 0) r' where
  agree {chain e o available ahead known live s} admits _ := by
    have small := admits.small
    obtain ⟨node,ty,location⟩ := e
    simp only [size] at small
    omega
  bounded _ _ := ⟨0,rfl⟩

theorem Lowers.unbounded {pass : Nat → Recurse} (lowers : ∀ depth, Lowers env roots depth (lowerWithin depth) (pass depth)) :
    Lowers env roots n lowerExpr fun chain e => pass (chain.weight + e.size) chain e where
  agree admits stance := (lowers _).agree ⟨Nat.le_refl _,admits.within⟩ stance
  bounded _ _ := ⟨_,rfl⟩

theorem lowers_lowerWithin (depth : Nat) : Lowers env roots depth (lowerWithin depth) (lowerWithin depth) := by
  induction depth with
  | zero => exact lowers_zero
  | succ depth ih => exact ih.step

theorem lowers_lowerExpr : Lowers env roots n lowerExpr lowerExpr := .unbounded lowers_lowerWithin

/-! ### Function bodies -/

/-- Initialize static fields in order with a given pass over expressions. -/
def lowerInitializersWith (lower : Recurse) (chain : Chain) : List (FieldId × Expr) → Lower Unit
  | [] => build (ret none)
  | (field, initializer) :: rest => do
    match ← eval lower chain initializer with
    | none => return
    | some value =>
      let register ← materialize value
      let global ← globalOf (.staticField field)
      build do
        let ptr ← const (.global global)
        store ptr register
      lowerInitializersWith lower chain rest

theorem lowerInitializersWith_lowerExpr :
    lowerInitializersWith lowerExpr chain pending = lowerInitializers chain pending := by
  induction pending with
  | nil => rfl
  | cons entry rest ih =>
    obtain ⟨field,initializer⟩ := entry
    refine congrArg (eval lowerExpr chain initializer >>= ·) (funext fun o => ?_)
    cases o with
    | none => rfl
    | some value => simp only [ih]

section
variable {o : Outset env roots chain} {available : List Register} {ahead : List Ahead} {known : List Joint} {live : Prop} {s : State}

theorem safe_bindParameters {kind : ScopeKind} {anchor base : List Register} {supply₀ : Supply} {s₀ : State}
    (stance : Stance (o.within kind anchor base supply₀ s₀) available ahead known live s)
    (owns : variableOwner? (⟨s₀.scopes.size,kind⟩ :: chain) = some s₀.scopes.size)
    (held : ∀ binding ∈ bindings, binding.2 ∈ available) : Safe env (bindParameters (⟨s₀.scopes.size,kind⟩ :: chain) bindings) s fun _ s' =>
      ∃ base, Stance (o.within kind anchor base supply₀ s₀) available ahead known live s' := by
  induction bindings generalizing s base with
  | nil => exact ⟨base,stance⟩
  | cons binding rest ih =>
    obtain ⟨parameter,register⟩ := binding
    have own : register ∈ available := held _ (.head _)
    have usable : Slot.Usable (.value (.ofRegister register parameter.ty)) := rfl
    refine (stance.declareVariable owns (by simpa [Slot.registers] using own) usable).bind fun _ s₁ stance => ?_
    exact ih stance fun other inside => held other (.tail _ inside)

theorem safe_closeFunction (stance : Stance o available ahead known live s) :
    Safe env (closeFunction returnsVoid) s fun _ s' => Stance o available ahead known False s' := by
  unfold closeFunction
  simp only [safe_bind,safe_isTerminated]
  split
  · rename_i ended
    exact stance.dead (stance.isTerminated.mp ended) not_false
  · rename_i goesOn
    have stance := stance.congr (iff_of_true (stance.alive (by simpa using goesOn)) trivial)
    split
    · exact stance.ret (nil_subset _)
    · exact stance.unreachable

section
variable (lowers : ∀ n, Lowers env roots n r r')
include lowers

theorem agree_lowerBody {o : Outset env roots []} {function : Option FunctionId} {receiver : Option Value}
    (stance : Stance o available ahead known live s) (within : Expr.Within roots e)
    (held : ∀ binding ∈ bindings, binding.2 ∈ available) (heldReceiver : ∀ v ∈ receiver, v.registers ⊆ available ∧ v.Completes) :
    Agree env r r' (fun r => withScope (.function function returnsVoid receiver) [] fun chain => do
      bindParameters chain bindings let _ ← r chain e
      closeFunction returnsVoid) s fun _ s' => Stance o available ahead known False s' := by
  refine stance.throughScope rfl (fun _ => heldReceiver) fun inside => ?_
  refine (safe_bindParameters inside rfl held).agree.bind fun _ s₁ ⟨base,inside⟩ => ?_
  refine ((lowers _).agree ⟨Nat.le_refl _,within⟩ inside).bind fun v s₂ inside => agree ?_
  exact mono (safe_closeFunction inside) fun _ _ inside => ⟨base,_,subset_append_right _ _,inside⟩

theorem carries_lowerInitializersWith (within : ∀ entry ∈ pending, Expr.Within roots entry.2) :
    Carries env roots r r' chain needs (fun r => lowerInitializersWith r chain pending) nothing fun _ => False := by
  induction pending generalizing needs with
  | nil => exact ⟨fun stance _ => agree (stance.ret (nil_subset _))⟩
  | cons entry rest ih =>
    obtain ⟨field,initializer⟩ := entry
    refine (lowers _).evalThen ⟨Nat.le_refl _,within _ (.head _)⟩ (fun _ => rfl) (nil_subset _) nofun (fun v completes => ?_)
    refine .after (.materialize completes (subset_append_left _ _)) fun register => .after .globalOf fun global => ?_
    refine .after (.buildBind .const fun ptr => .store (by simp) (by simp [nothing])) fun _ => ?_
    exact ih fun other inside => within other (.tail _ inside)

theorem agree_lowerInitializersWith {o : Outset env roots []}
    (stance : Stance o available ahead known True s) (within : ∀ entry ∈ pending, Expr.Within roots entry.2) :
    Agree env r r' (fun r => withScope (.function none true none) [] fun chain => lowerInitializersWith r chain pending) s
      fun _ s' => Stance o available ahead known False s' := by
  refine stance.throughScope rfl (fun _ => by simp [KindFits]) fun inside => ?_
  exact ((carries_lowerInitializersWith lowers within).agree inside (nil_subset _)).mono fun _ _ inside =>
    ⟨available,available,fun _ h => h,inside⟩

end

end

end Lower

end BlockLowering
