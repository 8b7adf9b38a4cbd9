import Mathlib.Logic.Function.Iterate
import BlockLowering.Proofs.Context
/-!
The recursion of the pass is well founded. An exit lowers finalizers that are no part of the expression it stands in, so
the measure is the size of the expression together with the finalizers around it: what a step hands to the pass over the
children is smaller by that measure. A pass with a bound that large is therefore never stopped by it.
-/
namespace BlockLowering
open List BlockLowering.Expr Nat Chain Function
variable {α : Type} {arguments : List (Option Expr)} {branches : List (Branch Expr)} {clauses : List (CatchClause Expr)}
  {statements : List (Statement Expr)} {items : List (ArrayItem Expr)} {body finalizer : Expr} {ty : Ty}

/-! ### Trees -/

namespace Expr
variable {e : Expr}

theorem size_pos (e : Expr) : 0 < e.size := by
  obtain ⟨node,ty,location⟩ := e
  exact succ_pos _

theorem size_le_optionSize {o : Option Expr} (given : e ∈ o) : e.size ≤ optionSize o := by
  cases o with
  | none => cases given
  | some e' =>
    cases given
    exact Nat.le_of_eq (by simp [optionSize])

theorem size_le_total {size : α → Nat} {total : List α → Nat}
    (cons : ∀ first rest, total (first :: rest) = size first + total rest) {entries : List α} {entry : α}
    (inside : entry ∈ entries) : size entry ≤ total entries := by
  induction inside with
  | head rest => exact cons _ rest ▸ Nat.le_add_right ..
  | tail first _ ih => exact cons first _ ▸ Nat.le_trans ih (Nat.le_add_left ..)

theorem size_le_argumentsSize (inside : e ∈ arguments.filterMap id) :
    e.size ≤ argumentsSize arguments := by
  obtain ⟨argument,listed,given⟩ := mem_filterMap.mp inside
  have part : optionSize argument ≤ argumentsSize arguments := size_le_total (fun _ _ => by rw [argumentsSize]) listed
  exact Nat.le_trans (size_le_optionSize given) part

theorem size_le_branchesSize {branch : Branch Expr} (inside : branch ∈ branches) :
    branch.condition.size + branch.result.size ≤ branchesSize branches := by
  have part : branchSize branch ≤ branchesSize branches := size_le_total (fun _ _ => by rw [branchesSize]) inside
  obtain ⟨condition,result⟩ := branch
  rwa [branchSize] at part

theorem size_le_clausesSize {clause : CatchClause Expr} (inside : clause ∈ clauses) :
    clause.body.size ≤ clausesSize clauses := by
  have part : clauseSize clause ≤ clausesSize clauses := size_le_total (fun _ _ => by rw [clausesSize]) inside
  obtain ⟨var,type,body⟩ := clause
  rwa [clauseSize] at part

theorem size_le_statementsSize {statement : Statement Expr}
    (inside : statement ∈ statements) (child : e ∈ statement.children) : e.size ≤ statementsSize statements := by
  have part : statementSize statement ≤ statementsSize statements := size_le_total (fun _ _ => by rw [statementsSize]) inside
  cases statement with
  | expression e' =>
    obtain rfl := mem_singleton.mp child
    rwa [statementSize] at part
  | «variable» var name ty isMutable initializer =>
    exact Nat.le_trans (size_le_optionSize (Option.mem_toList.mp child)) part

theorem size_le_itemsSize {item : ArrayItem Expr} (inside : item ∈ items) :
    item.expression.size ≤ itemsSize items := by
  have part : itemSize item ≤ itemsSize items := size_le_total (fun _ _ => by rw [itemsSize]) inside
  cases item <;> rwa [itemSize] at part

theorem size_le_nodeSize {node : Node Expr} {c : Expr} (child : c ∈ node.children) : c.size ≤ nodeSize node := by
  cases node with
  | call call =>
    obtain ⟨callee,dispatchReceiver,extensionReceiver,arguments,owner,lifetime⟩ := call
    simp only [nodeSize,callSize]
    have inside : c ∈ dispatchReceiver ∨ c ∈ extensionReceiver ∨ c ∈ arguments.filterMap id := by
      simpa [Node.children,or_assoc] using child
    rcases inside with inside | inside | inside
    · have := size_le_optionSize inside
      omega
    · have := size_le_optionSize inside
      omega
    · have := size_le_argumentsSize inside
      omega
  | delegate constructor arguments =>
    exact size_le_argumentsSize child
  | readField field receiver =>
    exact size_le_optionSize (Option.mem_toList.mp child)
  | writeField field receiver value =>
    simp only [nodeSize]
    rcases mem_append.mp child with inside | inside
    · have := size_le_optionSize (Option.mem_toList.mp inside)
      omega
    · obtain rfl := mem_singleton.mp inside
      omega
  | choice branches =>
    obtain ⟨branch,inside,child⟩ := mem_flatMap.mp child
    have := size_le_branchesSize inside
    simp only [nodeSize]
    have either : c = branch.condition ∨ c = branch.result := by simpa using child
    rcases either with rfl | rfl <;> omega
  | guarded body clauses finalizer =>
    simp only [nodeSize]
    rcases mem_cons.mp child with rfl | inside
    · omega
    · rcases mem_append.mp inside with inside | inside
      · obtain ⟨clause,listed,rfl⟩ := mem_map.mp inside
        have := size_le_clausesSize listed
        omega
      · have := size_le_optionSize (Option.mem_toList.mp inside)
        omega
  | sequence statements =>
    obtain ⟨statement,inside,child⟩ := mem_flatMap.mp child
    exact size_le_statementsSize inside child
  | whileLoop loop first second | repeatLoop loop first second =>
    simp only [nodeSize]
    have either : c = first ∨ c = second := by simpa [Node.children] using child
    rcases either with rfl | rfl <;> omega
  | arrayLiteral elementType items =>
    obtain ⟨item,inside,rfl⟩ := mem_map.mp child
    exact size_le_itemsSize inside
  | writeVar var value | returnFrom target value | raise value | inlined function value | typeOp operator value target =>
    obtain rfl := mem_singleton.mp child
    simp [nodeSize]
  | readVar _ | constant _ | breakFrom _ | continueWith _ | singleton _ | functionRef _ => cases child

end Expr

theorem Chain.weight_outer {chain outer : Chain} {number : Nat}
    (inside : ⟨number,.finalizing finalizer⟩ :: outer <:+ chain) : weight outer + finalizer.size ≤ chain.weight := by
  induction chain with
  | nil => cases suffix_nil.mp inside
  | cons scope rest ih =>
    rcases suffix_cons_iff.mp inside with same | further
    · rw [← same,weight]
      omega
    · have smaller := ih further
      obtain ⟨id,kind⟩ := scope
      cases kind with
      | finalizing other =>
        rw [weight]
        omega
      | _ => exact smaller

/-! ### Passes that agree on the children -/

namespace Lower
variable {r r' : Recurse} {chain : Chain} {e : Expr}

theorem eval_congr (same : r chain e = r' chain e) : eval r chain e = eval r' chain e := by
  unfold eval
  rw [same]

theorem withScope_congr {kind : ScopeKind} {f f' : Chain → Lower α}
    (same : ∀ number, f (⟨number,kind⟩ :: chain) = f' (⟨number,kind⟩ :: chain)) : withScope kind chain f = withScope kind chain f' := by
  unfold withScope
  simp only [same]

theorem evalAll_congr {es : List Expr} (same : ∀ e ∈ es, r chain e = r' chain e) : evalAll r chain es = evalAll r' chain es := by
  induction es with
  | nil => rfl
  | cons e rest ih =>
    obtain ⟨first,others⟩ := forall_mem_cons.mp same
    simp only [evalAll,eval_congr first,ih others]

theorem evalArguments_congr {function : FunctionDecl}
    (same : ∀ e ∈ arguments.filterMap id, r chain e = r' chain e) :
    evalArguments r chain function arguments = evalArguments r' chain function arguments := by
  simp only [evalArguments,evalAll_congr same]

theorem evalItems_congr (same : ∀ item ∈ items, r chain item.expression = r' chain item.expression) :
    evalItems r chain items = evalItems r' chain items := by
  induction items with
  | nil => rfl
  | cons item rest ih =>
    obtain ⟨first,others⟩ := forall_mem_cons.mp same
    simp only [evalItems,eval_congr first,ih others]

theorem fieldAddress_congr {field : FieldId} {receiver : Option Expr} (same : ∀ e ∈ receiver, r chain e = r' chain e) :
    fieldAddress r chain field receiver = fieldAddress r' chain field receiver := by
  cases receiver with
  | none => rfl
  | some e => simp only [fieldAddress,fieldReceiver,eval_congr (same e rfl)]

theorem leave_congr {exit : Exit} {value : Value}
    (same : ∀ {number finalizer outer}, ⟨number,.finalizing finalizer⟩ :: outer <:+ chain → r outer finalizer = r' outer finalizer) :
    leave r chain exit value = leave r' chain exit value := by
  induction chain generalizing value with
  | nil => rfl
  | cons scope outer ih =>
    have further : ∀ value, leave r outer exit value = leave r' outer exit value :=
      fun value => ih fun inside => same (inside.trans (suffix_cons scope outer))
    obtain ⟨number,kind⟩ := scope
    obtain ⟨step,unfolded,exits⟩ := exits_leave number kind outer exit value
    have unfolded : ∀ r, leave r (⟨number,kind⟩ :: outer) exit value = step r := congrFun unfolded
    cases exits with
    | finalizing => simp only [leave,eval_congr (same suffix_rfl),further]
    | outwards => exact (unfolded r).trans ((further value).trans (unfolded r').symm)
    | _ => exact (unfolded r).trans (unfolded r').symm

theorem lowerBranches_congr {merge : Option Continuation}
    (same : ∀ branch ∈ branches, r chain branch.condition = r' chain branch.condition ∧ r chain branch.result = r' chain branch.result) :
    lowerBranches r chain merge branches = lowerBranches r' chain merge branches := by
  induction branches with
  | nil => rfl
  | cons branch rest ih =>
    obtain ⟨⟨condition,result⟩,others⟩ := forall_mem_cons.mp same
    simp only [lowerBranches,eval_congr condition,result,ih others]

theorem lowerClauses_congr {exception : Register} {result : Continuation}
    (same : ∀ clause ∈ clauses, ∀ number, r (⟨number,.variables⟩ :: chain) clause.body = r' (⟨number,.variables⟩ :: chain) clause.body) :
    lowerClauses r chain exception result clauses = lowerClauses r' chain exception result clauses := by
  induction clauses with
  | nil => rfl
  | cons clause rest ih =>
    obtain ⟨first,others⟩ := forall_mem_cons.mp same
    have body : lowerClauseBody r chain clause exception result = lowerClauseBody r' chain clause exception result :=
      withScope_congr fun number => by simp only [first]
    simp only [lowerClauses,body,ih others]

theorem lowerCatching_congr (plain : r chain body = r' chain body)
    (guarded : ∀ number, r (⟨number,.catching⟩ :: chain) body = r' (⟨number,.catching⟩ :: chain) body)
    (same : ∀ clause ∈ clauses, ∀ number, r (⟨number,.variables⟩ :: chain) clause.body = r' (⟨number,.variables⟩ :: chain) clause.body) :
    lowerCatching r chain body clauses ty = lowerCatching r' chain body clauses ty := by
  unfold lowerCatching
  simp only [plain,lowerHandler,lowerClauses_congr same]
  refine ite_congr rfl (fun _ => rfl) fun _ => bind_congr fun result => congrArg (· >>= _) ?_
  exact withScope_congr fun number => by simp only [guarded]

theorem lowerFinalized_congr
    (last : r chain finalizer = r' chain finalizer)
    (same : ∀ number, lowerCatching r (⟨number,.finalizing finalizer⟩ :: chain) body clauses ty =
      lowerCatching r' (⟨number,.finalizing finalizer⟩ :: chain) body clauses ty) :
    lowerFinalized r chain body clauses finalizer ty = lowerFinalized r' chain body clauses finalizer ty := by
  unfold lowerFinalized
  simp only [lowerRethrow,eval_congr last]
  refine bind_congr fun normal => congrArg (· >>= _) ?_
  exact withScope_congr fun number => by simp only [same]

theorem lowerStatements_congr {last : Value}
    (same : ∀ statement ∈ statements, ∀ e ∈ statement.children, r chain e = r' chain e) :
    lowerStatements r chain ty last statements = lowerStatements r' chain ty last statements := by
  induction statements generalizing last with
  | nil => rfl
  | cons statement rest ih =>
    obtain ⟨first,others⟩ := forall_mem_cons.mp same
    have here : lowerStatement r chain statement = lowerStatement r' chain statement := by
      cases statement with
      | expression e => exact first e (mem_singleton_self e)
      | «variable» id name ty isMutable initializer =>
        cases initializer with
        | none => rfl
        | some e => simp only [lowerStatement,lowerDeclaration,eval_congr (first e (mem_singleton_self e))]
    simp only [lowerStatements,here,ih others]

/-! ### One step -/

/-- A step depends on the pass over the children only where the measure is smaller than that of the expression. -/
theorem stepNode_congr
    (same : ∀ (inner : Chain) (c : Expr), inner.weight + c.size ≤ chain.weight + nodeSize e.node → r inner c = r' inner c) :
    stepNode r chain e = stepNode r' chain e := by
  have child : ∀ {c}, c ∈ e.node.children → r chain c = r' chain c :=
    fun inside => same _ _ (Nat.add_le_add_left (size_le_nodeSize inside) _)
  have within : ∀ {c}, c ∈ e.node.children → ∀ scope : Scope, weight (scope :: chain) = chain.weight →
      r (scope :: chain) c = r' (scope :: chain) c :=
    fun inside scope light => same _ _ (light ▸ Nat.add_le_add_left (size_le_nodeSize inside) _)
  have leaves : ∀ {exit value}, leave r chain exit value = leave r' chain exit value :=
    leave_congr fun inside => same _ _ (Nat.le_trans (weight_outer inside) (Nat.le_add_right ..))
  unfold stepNode
  generalize e.node = node at child within same
  cases node with
  | call call =>
    have receivers : ∀ c ∈ call.dispatchReceiver.toList ++ call.extensionReceiver.toList, r chain c = r' chain c :=
      fun c inside => child (mem_append_left _ inside)
    have arguments : ∀ c ∈ call.arguments.filterMap id, r chain c = r' chain c :=
      fun c inside => child (mem_append_right _ inside)
    simp only [lowerCall,evaluateCall,evalAll_congr receivers,evalArguments_congr arguments]
  | delegate constructor arguments => simp only [lowerDelegate,evalArguments_congr fun c inside => child inside]
  | writeVar var value => simp only [lowerWriteVar,eval_congr (child (mem_singleton_self _))]
  | readField field receiver =>
    simp only [lowerReadField,fieldAddress_congr fun c inside => child (Option.mem_toList.mpr inside)]
  | writeField field receiver value =>
    simp only [lowerWriteField,eval_congr (child (mem_append_right _ (mem_singleton_self _))),
      fieldAddress_congr fun c inside => child (mem_append_left _ (Option.mem_toList.mpr inside))]
  | returnFrom target value => simp only [lowerReturn,eval_congr (child (mem_singleton_self _)),leaves]
  | breakFrom loop => simp only [lowerBreak,leaves]
  | continueWith loop => simp only [lowerContinue,leaves]
  | choice branches =>
    have each : ∀ merge, lowerBranches r chain merge branches = lowerBranches r' chain merge branches :=
      fun merge => lowerBranches_congr fun branch inside =>
        ⟨child (mem_flatMap.mpr ⟨branch,inside,.head _⟩),
          child (mem_flatMap.mpr ⟨branch,inside,.tail _ (mem_singleton_self _)⟩)⟩
    simp only [lowerChoice,each]
  | raise exception => simp only [lowerRaise,eval_congr (child (mem_singleton_self _))]
  | guarded body clauses finalizer =>
    have clause : ∀ inner : Chain, inner.weight ≤ chain.weight + optionSize finalizer → ∀ clause ∈ clauses, ∀ number,
        r (⟨number,.variables⟩ :: inner) clause.body = r' (⟨number,.variables⟩ :: inner) clause.body := by
      intro inner weight clause inside number
      have smaller := size_le_clausesSize inside
      exact same _ _ (by simp only [nodeSize,Chain.weight]; omega)
    have inside : ∀ inner : Chain, inner.weight ≤ chain.weight + optionSize finalizer → r inner body = r' inner body :=
      fun inner weight => same _ _ (by simp only [nodeSize]; omega)
    cases finalizer with
    | none =>
      have weight := le_add_right chain.weight (optionSize none)
      exact lowerCatching_congr (inside _ weight) (fun _ => inside _ weight) (clause _ weight)
    | some finalizer =>
      have weight : ∀ number, weight (⟨number,.finalizing finalizer⟩ :: chain) ≤ chain.weight + optionSize (some finalizer) :=
        fun number => by simp only [weight,optionSize]; omega
      refine lowerFinalized_congr (same _ _ (by simp only [nodeSize,optionSize]; omega)) fun number => ?_
      exact lowerCatching_congr (inside _ (weight number)) (fun _ => inside _ (weight number)) (clause _ (weight number))
  | inlined function body =>
    refine bind_congr fun exit => congrArg (· >>= _) (withScope_congr fun number => ?_)
    simp only [eval_congr (within (mem_singleton_self _) ⟨number,.inlined function exit⟩ rfl)]
  | sequence statements =>
    refine withScope_congr fun number => lowerStatements_congr fun statement inside c member => ?_
    exact within (mem_flatMap.mpr ⟨statement,inside,member⟩) ⟨number,.variables⟩ rfl
  | whileLoop loop first second | repeatLoop loop first second =>
    refine bind_congr fun _ => bind_congr fun _ => bind_congr fun exit => bind_congr fun _ => congrArg (· >>= _) ?_
    refine withScope_congr fun number => ?_
    have inner : ∀ {c} check, c ∈ [first,second] → _ :=
      fun check inside => eval_congr (within inside ⟨number,.loop loop exit check⟩ rfl)
    simp only [testLoop,lowerLoopBody,inner _ (.head _),inner _ (.tail _ (mem_singleton_self _))]
  | arrayLiteral elementType items =>
    simp only [lowerArrayLiteral,evalItems_congr fun item inside => child (mem_map_of_mem inside)]
  | typeOp operator operand target => simp only [lowerTypeOp,eval_congr (child (mem_singleton_self _))]
  | readVar _ | constant _ | singleton _ | functionRef _ => rfl

theorem step_congr (same : ∀ (inner : Chain) (c : Expr), inner.weight + c.size < chain.weight + e.size → r inner c = r' inner c) :
    step r chain e = step r' chain e := by
  have node : stepNode r chain e = stepNode r' chain e := by
    refine stepNode_congr fun inner c small => same inner c ?_
    obtain ⟨node,ty,location⟩ := e
    exact lt_succ_of_le small
  simp only [step,node]

/-- By induction on the depth: a pass that goes down far enough does not come to its bottom. -/
theorem iterate_step_congr (bottom bottom' : Recurse) {depth depth' : Nat} (enough : chain.weight + e.size ≤ depth)
    (enough' : chain.weight + e.size ≤ depth') : step^[depth] bottom chain e = step^[depth'] bottom' chain e := by
  have positive := e.size_pos
  induction depth generalizing depth' chain e with
  | zero => omega
  | succ depth ih =>
    obtain ⟨depth',rfl⟩ : ∃ d, depth' = d + 1 := ⟨depth' - 1,by omega⟩
    rw [iterate_succ_apply',iterate_succ_apply']
    exact step_congr fun inner c smaller => ih (by omega) (by omega) c.size_pos

theorem lowerWithin_eq_iterate (depth : Nat) : lowerWithin depth = step^[depth] fun _ _ => breach .depthExceeded := by
  induction depth with
  | zero => rfl
  | succ depth ih => rw [iterate_succ_apply',← ih,lowerWithin]

/-- The recursion of the pass is well founded: what a step makes of an expression depends on the pass over its children, and
    over the finalizers that it copies or that an exit in it runs, only where the finalizers around and the expression are
    smaller together. So a pass that goes down that far gives the same whatever stands at its bottom, and the pass without a
    bound is the step applied to itself. -/
theorem lowerExpr_well_founded : (∀ (r r' : Recurse) (chain : Chain) (e : Expr),
      (∀ (inner : Chain) (c : Expr), inner.weight + c.size < chain.weight + e.size → r inner c = r' inner c) →
        step r chain e = step r' chain e) ∧ (∀ (bottom : Recurse) (depth : Nat) (chain : Chain) (e : Expr), chain.weight + e.size ≤ depth →
      step^[depth] bottom chain e = lowerWithin depth chain e ∧ lowerWithin depth chain e = lowerExpr chain e) ∧
    step lowerExpr = lowerExpr := by
  have unbounded : ∀ (bottom : Recurse) {depth : Nat} {chain : Chain} {e : Expr}, chain.weight + e.size ≤ depth →
      step^[depth] bottom chain e = lowerExpr chain e := by
    intro bottom depth chain e enough
    rw [lowerExpr,lowerWithin_eq_iterate]
    exact iterate_step_congr _ _ enough (Nat.le_refl _)
  refine ⟨fun r r' chain e => step_congr,fun bottom depth chain e enough => ?_,funext fun chain => funext fun e => ?_⟩
  · rw [unbounded bottom enough,lowerWithin_eq_iterate,unbounded _ enough]
    exact ⟨rfl,rfl⟩
  · rw [← unbounded lowerExpr (Nat.le_succ (chain.weight + e.size)),Function.iterate_succ_apply']
    exact step_congr fun inner c smaller => (unbounded lowerExpr (Nat.le_of_lt smaller)).symm

end Lower

end BlockLowering
