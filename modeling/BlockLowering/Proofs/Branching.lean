import BlockLowering.Proofs.Calls
/-!
Conditionals, loops, sequences of statements and inlined bodies. The block behind such a construct is
waited for from its start on, and every path through the construct ends before that block is entered.
-/
namespace BlockLowering.Lower
open List Value

variable {env : Environment} {roots : Expr → Prop} {r r' : Recurse} {chain : Chain} {n : Nat} {needs : List Register} {merge : Option Continuation}
  {loop : LoopId} {statements : List (Statement Expr)}
  {o : Outset env roots chain} {available : List Register} {ahead ahead' : List Ahead} {known : List Joint} {live : Prop}
  {s : State} {e condition body : Expr} {ty : Ty} {v : Value} {k : Continuation} {branches : List (Branch Expr)}

theorem agree_behindScope {kind : ScopeKind} {step : Recurse → Chain → Lower Unit} {known' : List Joint}
    (stance : Stance o available ahead' known' live s) (plain : kind.catches = false) (less : known ⊆ known')
    (fits : Stance.Admits o available ahead' known' live s kind)
    (inner : Stance.Inside o available ahead' known' live s kind r r' step fun supply _ s' =>
      InScope o kind available supply s available (⟨k,available,.target⟩ :: ahead) known' False s') :
    Agree env r r' (fun r => withScope kind chain (step r) >>= fun _ => resumeAt k) s fun v s' =>
      Stance o (v.registers ++ available) ahead known v.Completes s' := by
  refine (stance.throughScope plain fits inner).bind fun _ s₁ ended => Safe.agree ?_
  exact Safe.mono (ended.resumeAt not_false stance.covered) fun v s₂ done => done.unlearn less

/-! ### Conditionals -/

theorem exists_unconditional (exhaustive : isExhaustive branches = true) : ∃ branch ∈ branches, branch.isUnconditional = true := by
  unfold isExhaustive at exhaustive
  cases last : branches.getLast? with
  | none => simp [last] at exhaustive
  | some branch => exact ⟨branch,mem_of_getLast? last,by simpa [last] using exhaustive⟩

/-- The value of a branch is brought to where the branches meet. Where they do not meet, the end of the branch
    stays as it is. -/
theorem safe_arrive (stance : Stance o (v.registers ++ available) ahead known v.Completes s)
    (covered : Covered o.levels available) (expects : ∀ k ∈ merge, Expects ahead known k available) :
    Safe env (arrive merge v) s fun _ s' => ∃ live, Stance o available ahead known live s' ∧
      (merge.isSome = true → ¬ live) ∧ (merge = none → s' = s) := by
  have kept : available ⊆ v.registers ++ available := subset_append_right _ _
  cases merge with
  | none => exact ⟨_,stance.forget kept covered,nofun,fun _ => rfl⟩
  | some k =>
    refine Safe.mono (stance.jump (expects k rfl) kept (subset_append_left _ _) fun h => h) fun _ s' done => ?_
    exact ⟨False,done.forget kept covered,fun _ => not_false,nofun⟩

theorem carries_fallthrough {merge : Continuation} :
    Carries env roots r r' chain needs (fun _ => fallthrough merge ty) registers Completes := by
  unfold fallthrough
  split
  · exact .toValue .typedConst
  · exact .pure (nil_subset _) rfl

namespace Lowers
variable (lowers : Lowers env roots n r r')
include lowers

/-- Branches are tested in order. Where they meet, the path goes on after them only if none is always
    taken; where they do not meet, the end of a branch under a condition may be left open. -/
theorem lowerBranches (stance : Stance o available ahead known True s)
    (admits : ∀ branch ∈ branches, Admits roots n chain branch.condition ∧ Admits roots n chain branch.result)
    (expects : ∀ k ∈ merge, Expects ahead known k available)
    (stays : merge = none → ∀ branch ∈ branches, branch.isUnconditional = false → ∀ {s v s' q b},
      Runs (r chain branch.result) env s v s' → s'.Stands q b → q.IsOpen b → LeftOpen env roots q b) :
    Agree env r r' (fun r => lowerBranches r chain merge branches) s fun _ s' =>
      ∃ live, Stance o available ahead known live s' ∧
        (merge.isSome = true → live → ∀ branch ∈ branches, branch.isUnconditional = false) := by
  induction branches generalizing s with
  | nil => exact Safe.agree ⟨True,stance,fun _ _ => by simp⟩
  | cons branch rest ih =>
    obtain ⟨admitsCondition,admitsResult⟩ := admits branch (.head _)
    have covered := stance.covered
    unfold Lower.lowerBranches
    split
    · refine (lowers.agree admitsResult stance).bind fun v s₁ stance => ?_
      refine Safe.agree (Safe.mono (safe_arrive stance covered expects) fun _ s₂ arrived => ?_)
      obtain ⟨live,stance,ended,-⟩ := arrived
      exact ⟨live,stance,fun meets alive => absurd alive (ended meets)⟩
    · rename_i conditional
      have conditional : branch.isUnconditional = false := by simpa using conditional
      refine (lowers.eval admitsCondition stance).bind fun found s₁ ⟨completes,stance⟩ => ?_
      cases found with
      | none => exact Safe.agree ⟨_,stance,fun _ => nofun⟩
      | some condition =>
        have stance := stance.congr (iff_of_true rfl trivial)
        refine (stance.flow (.materialize (completes condition rfl) fun _ h => h) (subset_append_left _ _)).agree.bind
          fun register s₂ stance => ?_
        have kept : available ⊆ [register] ++ (condition.registers ++ available) := fun _ h => by simp [h]
        refine (stance.labelledBlock "when.then" .other kept).agree.bind fun taken s₃ stance => ?_
        refine (stance.labelledBlock "when.next" .other kept).agree.bind fun next s₄ stance => ?_
        refine (Stance.divide (by simp) kept covered stance).agree.bind fun _ s₅ ⟨stance,away⟩ => ?_
        refine (lowers.awayFrom admitsResult stance away).and_runs.bind fun v s₆ ⟨⟨stance,away⟩,lowered⟩ => ?_
        refine (safe_arrive stance covered fun k same => (expects k same).next).agree.bind fun _ s₇ arrived => ?_
        obtain ⟨live,stance,ended,same⟩ := arrived
        have left : ∀ q b, s₇.Stands q b → q.IsOpen b → b ≠ q.graph.entry ∧ LeftOpen env roots q b := by
          cases merge with
          | none =>
            obtain rfl := same rfl
            exact fun q b stands isOpen => ⟨stance.inner away stands isOpen,stays rfl branch (.head _) conditional lowered stands isOpen⟩
          | some k => exact stance.ended (ended rfl)
        refine (stance.switchTo covered nofun left).agree.bind fun _ s₈ stance => ?_
        refine (ih stance (fun other inside => admits other (.tail _ inside))
          fun bare other inside => stays bare other (.tail _ inside)).mono fun _ s₉ done => ?_
        obtain ⟨live,stance,others⟩ := done
        exact ⟨live,stance,fun meets alive => forall_mem_cons.mpr ⟨conditional,others meets alive⟩⟩

theorem lowerChoice (within : Expr.Within roots e) (node : e.node = .choice branches)
    (admits : ∀ branch ∈ branches, Admits roots n chain branch.condition ∧ Admits roots n chain branch.result) :
    Carries env roots r r' chain needs (fun r => lowerChoice r chain branches e.ty) registers Completes := by
  refine ⟨fun stance _ => ?_⟩
  have covered := stance.covered
  unfold Lower.lowerChoice
  split
  · rename_i closing
    obtain ⟨never,exhaustive⟩ := Bool.and_eq_true_iff.mp closing
    refine (lowers.lowerBranches stance admits (by simp) fun _ branch inside conditional s v s' q b run stands isOpen => ?_).bind
      fun _ s₁ ⟨live,stance,_⟩ => Safe.agree (safe_endPath stance)
    obtain ⟨depth,bounded⟩ := lowers.bounded chain branch.result
    exact ⟨depth,chain,e,branches,branch,s,v,s',q,within,node,never,exhaustive,inside,conditional,
      bounded ▸ run,stands,isOpen,.refl q⟩
  · refine (stance.newContinuation e.ty "when.merge" .other fun _ h => h).agree.bind fun merge s₁ stance => ?_
    refine (lowers.lowerBranches stance admits (fun k same => Option.some.inj same ▸ .first nofun) nofun).bind
      fun _ s₂ ⟨live,stance,outcome⟩ => .after rfl ?_
    split
    · rename_i falls
      have alive := stance.alive (by simpa using (Bool.and_eq_true_iff.mp falls).2)
      refine (carries_fallthrough.agree (stance.congr (iff_of_true alive trivial)) (nil_subset _)).bind fun v s₃ stance => ?_
      refine (stance.jump (.first nofun) (subset_append_right _ _) (subset_append_left _ _) fun h => h).agree.bind
        fun _ s₄ stance => Safe.agree (stance.resumeAt not_false covered)
    · rename_i done
      have ended : ¬ live := by
        intro alive
        have conditional := outcome rfl alive
        obtain ⟨branch,inside,always⟩ := exists_unconditional (by simpa [stance.notEnded alive] using done)
        simp [conditional branch inside] at always
      exact Safe.agree (stance.resumeAt ended covered)

/-! ### Loops -/

theorem testLoop {block : BlockId} {exit : Continuation} (stance : Stance o available ahead known True s)
    (admits : Admits roots n chain condition)
    (waits : ∀ {available s}, Stance o available ahead known True s → Stance o available ahead' known True s)
    (expectsBody : Expects ahead' known block.plain available) (expectsExit : Expects ahead' known exit available)
    (bare : exit.phi = none) : Agree env r r' (fun r => testLoop r chain condition block exit) s fun tested s' =>
      Stance o available (if tested then ahead' else ahead) known False s' := by
  have covered := stance.covered
  refine (lowers.eval admits stance).bind fun found s₁ ⟨completes,stance⟩ => ?_
  cases found with
  | none => exact Safe.agree (stance.dead nofun not_false)
  | some v =>
    have stance := stance.congr (iff_of_true rfl trivial)
    refine Safe.agree ((stance.flow (.materialize (completes v rfl) fun _ h => h) (subset_append_left _ _)).bind
      fun register s₂ stance => ?_)
    have kept : available ⊆ [register] ++ (v.registers ++ available) := fun _ h => by simp [h]
    refine ((waits stance).fork block.plain exit (by simp) expectsBody expectsExit rfl bare kept kept).bind fun _ s₃ stance => ?_
    exact (stance.forget kept covered).unlearn fun _ h => by simp [h]

theorem lowerLoopBody {block check : BlockId} {counted : List Register}
    (stance : Stance o available (⟨block.plain,counted,.other⟩ :: ahead) known False s) (admits : Admits roots n chain body)
    (covered : Covered o.levels counted) (expects : Expects ahead known check.plain counted) :
    Agree env r r' (fun r => lowerLoopBody r chain body block check) s fun _ s' => Stance o counted ahead known False s' := by
  refine (stance.enter nofun covered).agree.bind fun _ s₁ stance => ?_
  refine (lowers.eval admits stance).bind fun found s₂ ⟨_,stance⟩ => ?_
  cases found with
  | none => exact Safe.agree (stance.dead nofun not_false)
  | some v =>
    have kept : counted ⊆ v.registers ++ counted := subset_append_right _ _
    have stance := stance.congr (iff_of_true rfl trivial)
    refine Safe.agree ((stance.branch check.plain expects.offers rfl kept).mono fun _ s₃ stance => ?_)
    exact (stance.forget kept covered).unlearn (subset_cons_self _ _)

theorem lowerWhile (admitsCondition : Admits roots n chain condition) (admitsBody : Admits roots n chain body) :
    Carries env roots r r' chain needs (fun r => lowerWhile r chain loop condition body) registers Completes := by
  refine ⟨fun {o available ahead known s} stance _ => ?_⟩
  refine (stance.labelledBlock "while.check" .other fun _ h => h).agree.bind fun check s₁ stance => ?_
  refine (stance.labelledBlock "while.body" .later fun _ h => h).agree.bind fun block s₂ stance => ?_
  refine (stance.newExit "while.exit" .target fun _ h => h).agree.bind fun exit s₃ ⟨bare,stance⟩ => ?_
  refine (stance.branch check.plain (Expects.offers (.next (.next (.first (by simp))))) rfl fun _ h => h).agree.bind
    fun _ s₄ stance => ?_
  refine agree_behindScope stance rfl (subset_cons_self _ _) (fun point => ?_) fun {supply} inside => ?_
  · exact ⟨point.ahead _ (.head _),(point.known _ (.head _)).1,.inl (.head _),
      (point.known _ (.head _)).2.later (.refl _) (nil_subset _)⟩
  · have admitsCondition : Admits roots n (⟨s₄.scopes.size,.loop loop exit check⟩ :: chain) condition :=
      ⟨admitsCondition.small,admitsCondition.within⟩
    have covered := inside.covered
    have inside := inside.reorder (@perm_middle _ _ [_,_] _)
    refine (inside.enter nofun covered).agree.bind fun _ s₅ inside => ?_
    refine (lowers.testLoop inside admitsCondition (fun stance => ((stance.reorder (.swap ..)).await rfl).reorder (.swap ..))
      (.next (.first nofun)) (.first nofun) bare).bind fun tested s₆ inside => ?_
    cases tested with
    | true =>
      refine (lowers.lowerLoopBody (inside.reorder (.swap ..)) ⟨admitsBody.small,admitsBody.within⟩ covered
        (.inr (.head _))).mono fun _ s₇ inside => ?_
      exact ⟨available,available,fun _ h => h,inside⟩
    | false => exact Safe.agree ⟨available,available,fun _ h => h,(inside.reorder (.swap ..)).drop rfl⟩

theorem lowerRepeat (admitsBody : Admits roots n chain body) (admitsCondition : Admits roots n chain condition) :
    Carries env roots r r' chain needs (fun r => lowerRepeat r chain loop body condition) registers Completes := by
  refine ⟨fun {o available ahead known s} stance _ => ?_⟩
  refine (stance.labelledBlock "do.body" .other fun _ h => h).agree.bind fun block s₁ stance => ?_
  refine (stance.labelledBlock "do.check" .target fun _ h => h).agree.bind fun check s₂ stance => ?_
  refine (stance.newExit "do.exit" .target fun _ h => h).agree.bind fun exit s₃ ⟨bare,stance⟩ => ?_
  refine (stance.branch block.plain (Expects.offers (.next (.next (.first (by simp))))) rfl fun _ h => h).agree.bind
    fun _ s₄ stance => ?_
  refine agree_behindScope stance rfl (subset_cons_self _ _) (fun point => ?_) fun {supply} inside => ?_
  · exact ⟨point.ahead _ (.head _),point.ahead _ (.tail _ (.head _)),.inl (.head _),
      .inl (.tail _ (.head _))⟩
  · have admitsBody : Admits roots n (⟨s₄.scopes.size,.loop loop exit check⟩ :: chain) body :=
      ⟨admitsBody.small,admitsBody.within⟩
    have covered := inside.covered
    have inside := inside.reorder (@perm_middle _ _ [_,_] _)
    refine (lowers.lowerLoopBody inside admitsBody covered (.next (.first nofun))).bind fun _ s₅ inside => ?_
    refine ((inside.reorder (.swap ..)).enterBlock not_false covered).agree.bind fun entered s₆ ⟨_,inside⟩ => ?_
    cases entered with
    | true =>
      have inside := inside.congr (iff_of_true rfl trivial)
      refine (lowers.testLoop inside ⟨admitsCondition.small,admitsCondition.within⟩ (fun stance => stance) (.inr (.head _))
        (.first nofun) bare).bind fun tested s₇ inside => Safe.agree ⟨available,available,fun _ h => h,?_⟩
      simpa using inside
    | false => exact Safe.agree ⟨available,available,fun _ h => h,inside.dead nofun not_false⟩

/-! ### Inlined bodies and sequences -/

theorem lowerInlined {function : FunctionId} (admits : Admits roots n chain body) :
    Carries env roots r r' chain needs (fun r => lowerInlined r chain function body ty) registers Completes := by
  refine ⟨fun {o available ahead known s} stance _ => ?_⟩
  refine (stance.newContinuation ty "inline.exit" .target fun _ h => h).agree.bind fun exit s₁ stance => ?_
  refine agree_behindScope stance rfl (fun _ h => h) (fun point => ?_) fun {supply} inside => ?_
  · exact ⟨point.ahead _ (.head _),.inl (.head _)⟩
  · have admits : Admits roots n (⟨s₁.scopes.size,.inlined function exit⟩ :: chain) body := ⟨admits.small,admits.within⟩
    refine (lowers.eval admits inside).bind fun found s₂ ⟨completes,inside⟩ => ?_
    cases found with
    | none => exact Safe.agree ⟨available,available,fun _ h => h,inside.dead nofun not_false⟩
    | some v =>
      refine Safe.agree (Safe.mono (inside.jump (.first nofun) (subset_append_right _ _) (subset_append_left _ _)
        fun _ => completes v rfl) fun _ s₃ inside => ⟨available,_,subset_append_right _ _,inside⟩)

end Lowers

section
variable {anchor base : List Register} {supply₀ : Supply} {s₀ : State} {var : VarId}

theorem safe_declareStackSlot {initial : Option Value}
    (stance : Stance (o.within .variables anchor base supply₀ s₀) available ahead known True s)
    (usable : ∀ v ∈ initial, v.registers ⊆ available ∧ v.Completes) :
    Safe env (declareStackSlot (⟨s₀.scopes.size,.variables⟩ :: chain) var ty initial) s fun _ s' =>
      InScope o .variables anchor supply₀ s₀ available ahead known True s' := by
  refine (stance.flow .alloc (nil_subset _)).bind fun ptr s₁ stance => ?_
  have stored : ∀ {register s₂}, Stance (o.within .variables anchor base supply₀ s₀) ([register] ++ ([ptr] ++ available))
      ahead known True s₂ → Safe env (do
        build (Build.store ptr register)
        declareVariable (⟨s₀.scopes.size,.variables⟩ :: chain) var (.stack ptr ty)) s₂ fun _ s' =>
          InScope o .variables anchor supply₀ s₀ available ahead known True s' := by
    intro register s₂ stance
    refine (stance.flow (.store (by simp) (by simp)) fun _ h => h).bind fun _ s₃ stance => ?_
    refine Safe.mono (stance.declareVariable rfl (by simp [Slot.registers,nothing]) trivial) fun _ s₄ stance => ?_
    exact ⟨_,_,fun _ h => by simp [h],stance⟩
  cases initial with
  | some v =>
    obtain ⟨held,completes⟩ := usable v rfl
    exact (stance.flow (.materialize completes held) (subset_append_right _ _)).bind fun _ _ stance => stored stance
  | none => exact (stance.flow .const (nil_subset _)).bind fun _ _ stance => stored stance

namespace Lowers
variable (lowers : Lowers env roots n r r')
include lowers

section
variable (stance : Stance (o.within .variables anchor base supply₀ s₀) available ahead known True s)
include stance

theorem lowerDeclaration {isMutable : Bool} {initializer : Option Expr} (admits : ∀ e ∈ initializer, Admits roots n chain e) :
    Agree env r r' (fun r => lowerDeclaration r (⟨s₀.scopes.size,.variables⟩ :: chain) var ty isMutable initializer) s
      fun _ s' => ∃ live, InScope o .variables anchor supply₀ s₀ available ahead known live s' := by
  cases initializer with
  | none =>
    have declared : Safe env (declareStackSlot (⟨s₀.scopes.size,.variables⟩ :: chain) var ty none) s fun _ s' =>
        InScope o .variables anchor supply₀ s₀ available ahead known True s' := safe_declareStackSlot stance (by simp)
    exact Safe.agree (declared.mono fun _ _ done => ⟨True,done⟩)
  | some e =>
    have admits : Admits roots n (⟨s₀.scopes.size,.variables⟩ :: chain) e := ⟨(admits e rfl).small,(admits e rfl).within⟩
    refine (lowers.eval admits stance).bind fun found s₁ ⟨completes,stance⟩ => ?_
    cases found with
    | none => exact Safe.agree ⟨_,base,available,fun _ h => h,stance⟩
    | some v =>
      have stance := stance.congr (iff_of_true rfl trivial)
      have kept : available ⊆ v.registers ++ available := subset_append_right _ _
      dsimp only
      split
      · refine Safe.agree (Safe.mono (safe_declareStackSlot stance fun w same => ?_) fun _ s₂ done => ⟨True,?_⟩)
        · exact Option.some.inj same ▸ ⟨subset_append_left _ _,completes v rfl⟩
        · obtain ⟨base',available',more,stance⟩ := done
          exact ⟨base',available',fun _ h => more (kept h),stance⟩
      · refine Safe.agree (Safe.mono (stance.declareVariable rfl (subset_append_left _ _) (completes v rfl)) fun _ s₂ stance => ?_)
        exact ⟨True,_,_,kept,stance⟩

theorem lowerStatement {statement : Statement Expr} (admits : ∀ e ∈ statement.children, Admits roots n chain e) :
    Agree env r r' (fun r => lowerStatement r (⟨s₀.scopes.size,.variables⟩ :: chain) statement) s fun v s' =>
      ∃ live, (live → v.Completes) ∧ InScope o .variables anchor supply₀ s₀ (v.registers ++ available) ahead known live s' := by
  cases statement with
  | expression e =>
    have admits : Admits roots n (⟨s₀.scopes.size,.variables⟩ :: chain) e :=
      ⟨(admits e (.head _)).small,(admits e (.head _)).within⟩
    refine (lowers.agree admits stance).mono fun v s₁ stance => ?_
    exact ⟨v.Completes,fun h => h,base,_,fun _ h => h,stance⟩
  | «variable» var name ty isMutable initializer =>
    refine (lowers.lowerDeclaration stance fun e given => admits e (Option.mem_toList.mpr given)).bind fun _ s₁ ⟨live,done⟩ => ?_
    exact Safe.agree ⟨live,fun _ => rfl,done⟩

end

theorem lowerStatements {last : Value}
    (stance : Stance (o.within .variables anchor base supply₀ s₀) available ahead known live s)
    (admits : ∀ statement ∈ statements, ∀ e ∈ statement.children, Admits roots n chain e) (held : last.registers ⊆ available)
    (completes : live → last.Completes) :
    Agree env r r' (fun r => lowerStatements r (⟨s₀.scopes.size,.variables⟩ :: chain) ty last statements) s fun v s' =>
      InScope o .variables anchor supply₀ s₀ (v.registers ++ available) ahead known v.Completes s' := by
  induction statements generalizing s last live base available with
  | nil =>
    have stay : ∀ w : Value, w.registers ⊆ available → (live ↔ w.Completes) →
        InScope o .variables anchor supply₀ s₀ (w.registers ++ available) ahead known w.Completes s := fun w held same =>
      ⟨base,available,append_subset.mpr ⟨held,fun _ h => h⟩,stance.congr same⟩
    refine .after rfl ?_
    by_cases alive : live
    · have there : last.isUnreachable = false := completes alive
      rw [if_neg (by simp [stance.notEnded alive,there])]
      split
      · exact Safe.agree (stay _ (nil_subset _) (iff_of_true alive rfl))
      · exact Safe.agree (stay (last.withType ty) held (iff_of_true alive (completes alive)))
    · rw [if_pos (by simp [stance.isTerminated.mpr alive])]
      exact Safe.agree (stay _ (nil_subset _) (iff_of_false alive (not_completes_unreachable _)))
  | cons statement rest ih =>
    refine .after rfl ?_
    split
    · rename_i ended
      have dead := stance.dead (stance.isTerminated.mp ended) (not_completes_unreachable ty)
      exact Safe.agree ⟨base,available,fun _ h => h,dead⟩
    · rename_i notEnded
      have stance := stance.congr (iff_of_true (stance.alive (by simpa using notEnded)) trivial)
      refine (lowers.lowerStatement stance (admits statement (.head _))).bind fun v s₁ after => ?_
      obtain ⟨live,completes,base',available',kept,stance⟩ := after
      obtain ⟨heldValue,heldRest⟩ := append_subset.mp kept
      refine (ih stance (fun other inside => admits other (.tail _ inside)) heldValue completes).mono fun w s₂ done => ?_
      obtain ⟨base'',available'',more,stance⟩ := done
      exact ⟨base'',available'',fun _ h => more (append_subset_append _ heldRest h),stance⟩

theorem lowerSequence
    (admits : ∀ statement ∈ statements, ∀ e ∈ statement.children, Admits roots n chain e) :
    Carries env roots r r' chain needs (fun r => lowerSequence r chain statements ty) registers Completes :=
  ⟨fun stance _ => stance.withScope rfl (fun _ => trivial) fun inside =>
    lowers.lowerStatements inside admits (nil_subset _) fun _ => rfl⟩

end Lowers

end

end BlockLowering.Lower
