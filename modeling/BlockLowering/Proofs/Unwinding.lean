import BlockLowering.Proofs.Stances
/-!
Exceptions and calls. A landing pad is filled while the block of the call is still open, outside all
scopes; it counts on what had values when its scope was opened, which is there at every call inside.
-/
namespace BlockLowering
open Lower List Waits CallSite ScopeState CallTarget Builder
variable {id : FunctionId} {product : Product}

def CallTarget.registers (target : CallTarget) : List Register :=
  match target.callee with
  | .direct _ => []
  | .indirect pointer => [pointer]

theorem CallSite.uses_of_target {target : CallTarget} {args : List Register} {signature : Signature}
    {lifetime : Lifetime} : (mk target.callee args signature lifetime).uses = target.registers ++ args := by
  unfold uses registers
  cases target.callee <;> rfl

theorem Chain.exists_catcher {request : Request} {chain : Chain} {id : Nat}
    (found : chain.catcher request = .ok (some id)) : ∃ scope ∈ chain, scope.id = id ∧ scope.kind.catches = true := by
  induction chain with
  | nil => cases found
  | cons scope outer ih =>
    obtain ⟨number,kind⟩ := scope
    cases kind with
    | function _ _ _ => cases found
    | catching =>
      obtain rfl : number = id := by simpa [catcher] using found
      exact ⟨_,.head _,rfl,rfl⟩
    | finalizing _ =>
      obtain rfl : number = id := by simpa [catcher] using found
      exact ⟨_,.head _,rfl,rfl⟩
    | _ =>
      obtain ⟨scope,inside,same⟩ := ih found
      exact ⟨scope,.tail _ inside,same⟩

section
variable {α β : Type} {env : Environment} {roots : Expr → Prop} {supply supply' : Supply} {s s' : State} {p p' : Procedure}
  {b c normal unwind : BlockId} {scope : Scope} {chain : Chain} {o : Outset env roots chain}
  {available counted needs anchor : List Register} {ahead : List Ahead} {known : List Joint} {live : Prop} {role : Role}
  {k : Continuation} {site : CallSite} {target : CallTarget} {args : List Register} {dest : Option Register} {lifetime : Lifetime}
  {routine : SupportRoutine}

/-! ### Handlers and landing pads -/

theorem Point.handler {h : Continuation} {level : Level} (point : Point o available ahead known live supply s p c)
    (member : (scope, level) ∈ chain.zip o.levels) (given : (s.scopes[scope.id]?).bind handler = some h) :
    Known supply p h level.anchor ∧ h.block ∈ chain.handlers s.scopes := by
  obtain ⟨state,found,fits⟩ := point.standing.fits.scope_at member
  rw [found,Option.bind_some] at given
  exact ⟨(fits.handler given).1,mem_filterMap.mpr ⟨scope,(of_mem_zip member).1,by simp [found,given]⟩⟩

theorem Stance.level (stance : Stance o available ahead known live s) (inside : scope ∈ chain) :
    ∃ level, (scope, level) ∈ chain.zip o.levels ∧ level.anchor ⊆ available := by
  obtain ⟨supply,p,c,point⟩ := stance.point
  obtain ⟨level,member⟩ := point.standing.fits.exists_level inside
  obtain ⟨anchored,based⟩ := point.standing.fits.base_subset member point.standing.covered
  exact ⟨level,member,fun _ h => based (anchored h)⟩

theorem Stance.handlerOf (stance : Stance o available ahead known live s) (inside : scope ∈ chain)
    (catches : scope.kind.catches = true) : Safe env (handlerOf scope.id) s fun h s' =>
      Stance o available ahead known live s' ∧ (s'.scopes[scope.id]?).bind handler = some h := by
  obtain ⟨level,member,held⟩ := stance.level inside
  obtain ⟨supply,p,c,point⟩ := stance.point
  obtain ⟨state,found,-⟩ := point.standing.fits.scope_at member
  refine safe_bind.mpr (safe_scopeState.mpr ?_)
  rw [found,Option.getD_some]
  cases handler : state.handler with
  | some h => exact ⟨stance,by rw [found,Option.bind_some,handler]⟩
  | none =>
    refine (stance.newContinuation .object "catch.handler" .other held).and_runs.bind fun k s₁ ⟨stance₁,run⟩ => ?_
    obtain ⟨-,-,scopes,object⟩ := run.newContinuation point.standing.stands
    rw [← scopes] at found
    obtain ⟨supply₁,p₁,c₁,point₁⟩ := stance₁.point
    obtain ⟨state₁,found₁,fits⟩ := point₁.standing.fits.scope_at member
    obtain rfl := Option.mem_unique found found₁
    obtain ⟨after,leads,changed⟩ := point₁.standing.changeScope (f := fun state => { state with handler := some k }) member found
      { fits with
        handler := fun same => by
          cases same
          exact ⟨point₁.ahead _ (.head _),object,catches⟩ } rfl (.inl handler)
    refine safe_bind.mpr (safe_modifyScope.mpr ⟨⟨supply₁,p₁,c₁,point₁.moves (after.dropOther (.inr (.inl ?_))) leads ?_ point₁.live ?_
      (.inl rfl) (fun _ inside => .inl (.tail _ inside)) fun _ => .inl⟩,by rw [changed]; rfl⟩)
    · exact mem_filterMap.mpr ⟨scope,inside,by simp [changed]⟩
    · refine point₁.footing.reorder (perm_middle.symm.trans (Perm.append_left _ ?_))
      exact handlers_modify_new found (by simp [ScopeState.handlerBlock,handler]) rfl
    · exact State.cleanups_modify fun _ => rfl

theorem Stance.besides {m : Lower Unit} (stance : Stance o available (⟨b.plain,counted,role⟩ :: ahead) known True s)
    (handles : ∀ {supply p c}, Point o available (⟨b.plain,counted,role⟩ :: ahead) known True supply s p c →
      Known supply p k anchor ∧ k.block ∈ chain.handlers s.scopes)
    (inner : ∀ {o' : Outset env roots []}, (∀ {available live s'}, Offers o' available [] [] live s' k anchor) →
      Stance o' counted [] [] True (s.moveTo b) → Safe env m (s.moveTo b) fun _ s' =>
        (∃ available', Stance o' available' [] [] False s') ∧ ∃ t, s'.EndsWith b t) :
    Safe env (Lower.atBlock b m) s fun _ s' => Stance o available ahead ((b.plain, counted) :: known) True s' := by
  obtain ⟨supply,p,c,point⟩ := stance.point
  have there : Known supply p b.plain counted := point.ahead _ (.head _)
  obtain ⟨block,found,-⟩ := there.there
  have suspended := point.standing.await (within_other _ c)
  obtain ⟨moved,leads⟩ := suspended.detach.move ⟨block,found⟩ (there.reaches point.standing.sound) (by simp [Covered])
    fun _ => .inl (mem_all_aside.mpr (.inr (mem_all_other.mpr (.inl rfl))))
  have begun : Stance (⟨[],none,_,c :: (ahead.map Ahead.block ++ o.kept),supply,s⟩ : Outset env roots []) counted [] [] True
      (s.moveTo b) := ⟨supply,p,b,moved,leads,point.footing.leave (point.live.mpr trivial),
    iff_true_intro (point.footing.opened b (.head _)),forall_mem_nil _,forall_mem_nil _,⟨forall_mem_nil _,trivial⟩,
    fun isOpen => .inr ((point.rooted isOpen).elim (fun here => here ▸ .head _) fun kept => .tail _ (mem_append_right _ kept))⟩
  refine safe_atBlock.mpr ((inner (fun {available live s' supply₁ p₁ c₁} point₁ => ?_) begun).mono ?_)
  · obtain ⟨q,here,later⟩ := point₁.led.later point.standing.stands.procedure
    obtain rfl := point₁.standing.unique here
    exact ⟨(handles point).1.later later,.inl (mem_append_left _ (mem_all_aside.mpr (.inl (handles point).2)))⟩
  · rintro _ s' ⟨⟨available',supply',p',c',point'⟩,t,q,block',here,found',ended⟩
    obtain rfl := point'.standing.unique here
    obtain ⟨back,leads⟩ := point.standing.goBack point'.led point'.standing point'.live.mp (by simp [Covered])
    have leads := point'.led.trans leads
    obtain ⟨whole,led⟩ := suspended.attach leads back stance.covered
    have shut : ¬ q.IsOpen b := by
      rintro ⟨block'',found'',isOpen⟩
      obtain rfl := Option.mem_unique found' found''
      simp [ended] at isOpen
    have settled : Awaited q [] b := .inr ⟨block',found',.inr (by simp [ended])⟩
    obtain ⟨_,here',later⟩ := point'.led.later point.standing.stands.procedure
    obtain rfl := point'.standing.unique here'
    rw [point.standing.stands.cursor]
    exact ⟨supply',_,c,point.moves (Standing.arrive (a := ⟨b.plain,counted,role⟩) (whole.dropOther (.inl rfl)) (.inr shut) fun _ => settled)
      led point'.footing.moveTo (iff_true_intro (point'.footing.opened c (.head _))) (State.cleanups_of_scopes leads.scopes_eq)
      (.inl rfl) (fun _ inside => .inl (.tail _ inside)) (forall_mem_cons.mpr ⟨.inr ⟨there.later later,settled⟩,fun _ => .inl⟩)⟩

/-! ### Calls -/

theorem Procedure.Gains.result {block : Block} (type : NativeType) (gains : p.Gains supply supply' p' normal available [])
    (found : p.graph.block? c = some block) :
    ∃ supply₁, p.Gains supply supply₁ (p'.allocRegister type).2 normal (⟨p'.nextRegister⟩ :: available) [] ∧
      (p'.allocRegister type).2.Fresh supply₁ c ⟨p'.nextRegister⟩ := by
  have other : c ≠ normal := by
    rintro rfl
    simp [gains.absent] at found
  obtain ⟨_,there,-⟩ := gains.blank
  obtain ⟨_,found',-⟩ := gains.later.grows.blocks found
  have fresh := gains.sound.fresh type found'
  have supplied := (gains.allocRegister type).resupply (⟨p'.nextRegister⟩ :: available) fun r inside => by
    rcases mem_cons.mp inside with rfl | old
    · exact ⟨Nat.lt_succ_self _,by simp⟩
    · exact ⟨Nat.lt_succ_of_lt (gains.sound.supplied.bounded there (gains.counts ▸ old)),by simp⟩
  exact ⟨_,supplied,fresh.taken,fresh.input,fresh.undefined,by rw [Supply.set_other other]; exact fresh.unsupplied⟩

section
variable (point : Point o available ahead known True supply s p c) (uses : site.uses ⊆ available)
  (unwinds : Known supply p unwind.plain anchor ∧ Awaited p ((o.waits.plus ahead).all ++ chain.handlers s.scopes) unwind)
  (held : anchor ⊆ available)
include point uses unwinds held

/-- A call that may throw ends its block; the code goes on in a new one, where its result has a value. -/
theorem Point.invoke (gains : p.Gains supply supply' p' normal (dest.toList ++ available) [])
    (fresh : ∀ r ∈ dest, p'.Fresh supply' c r) : Stance o (dest.toList ++ available) ahead known True
      ((s.put (p'.close c (.invoke dest site normal unwind))).moveTo normal) := by
  have gained := point.gain (k := normal.plain) gains gains.known .other
  have covered : Covered o.levels (dest.toList ++ available) := point.standing.covered.mono (subset_append_right _ _)
  have closed : Stance o available (⟨normal.plain,dest.toList ++ available,.other⟩ :: ahead)
      ([(normal.plain, dest.toList ++ available),(unwind.plain, anchor)] ++ known) False
      ((s.put p').put (p'.close c (.invoke dest site normal unwind))) := by
    refine ⟨supply',_,c,gained.close _ uses fresh rfl (forall_mem_cons.mpr
      ⟨⟨rfl,?_,gains.known,.inl ?_⟩,forall_mem_singleton.mpr ⟨rfl,?_,unwinds.1.later gains.later,?_⟩⟩)⟩
    · rw [Terminator.given,if_pos rfl]
      exact fun _ h => h
    · exact mem_append_left _ (mem_all_other.mpr (.inl rfl))
    · exact fun _ h => mem_append_right _ (held h)
    · refine unwinds.2.later gains.later.grows (append_subset.mpr ⟨fun _ h => ?_,subset_append_right _ _⟩)
      exact mem_append_left _ (mem_all_other.mpr (.inr h))
  rw [State.put_put] at closed
  exact (closed.moveTo covered nofun (closed.ended not_false)).unlearn (subset_append_right _ _)

theorem Point.safe_invoke {label : String} : Safe env (do
      let normal ← build (Build.labelledBlock label)
      let dest ← build (Build.invoke site normal unwind)
      build (Build.switchTo normal)
      return dest) s fun dest s' => Stance o (dest.toList ++ available) ahead known True s' := by
  refine safe_bind.mpr (safe_build.mpr ((Build.safe_labelledBlock point.standing.stands.procedure label).mono ?_))
  rintro _ _ ⟨rfl,p₁,made,rfl⟩
  have gains := Procedure.Gains.labelled point.standing.sound point.standing.reaches.taken made
  obtain ⟨block,found,isOpen⟩ := point.live.mpr trivial
  have isOpen : p₁.IsOpen c := by
    refine (Procedure.isOpen_congr (gains.others ?_)).mpr ⟨block,found,isOpen⟩
    rintro rfl
    simp [gains.absent] at found
  refine safe_bind.mpr (safe_build.mpr ((Build.safe_invoke (procedure?_put point.standing.stands.procedure)
    (put_cursor.trans point.standing.stands.cursor) isOpen site p.nextBlock unwind).mono ?_))
  rintro _ _ (⟨rfl,-,rfl⟩ | ⟨rfl,-,rfl⟩)
  · rw [put_put]
    exact point.invoke uses unwinds held gains nofun
  · rw [put_put]
    obtain ⟨supply₁,gains,fresh⟩ := gains.result site.signature.result found
    exact point.invoke uses unwinds held gains fun r same => Option.some.inj same ▸ fresh

end

namespace Lower.Runs

theorem isSome_withResult {signature : Signature} {step : Option Register → Build Unit}
    (run : Runs (build (Build.resultRegister signature >>= fun dest => step dest >>= fun _ => pure dest)) env s dest s') :
    dest.isSome = !signature.returnsVoid := by
  obtain ⟨_,built,-⟩ := runs_build.mp run
  obtain ⟨result,_,taken,built⟩ := Build.runs_bind.mp built
  obtain ⟨_,_,-,built⟩ := Build.runs_bind.mp built
  obtain ⟨rfl,-⟩ := Build.runs_pure.mp built
  exact taken.isSome_resultRegister

theorem isSome_call (run : Runs (call chain target args lifetime) env s dest s') : dest.isSome = !target.signature.returnsVoid := by
  obtain ⟨catcher,_,-,run⟩ := runs_bind.mp run
  cases catcher with
  | none => exact isSome_withResult run
  | some scope =>
    dsimp only at run
    split at run
    · obtain ⟨_,_,-,run⟩ := runs_bind.mp run
      obtain ⟨_,_,-,run⟩ := runs_bind.mp run
      obtain ⟨_,_,invoked,run⟩ := runs_bind.mp run
      obtain ⟨_,_,-,run⟩ := runs_bind.mp run
      obtain ⟨rfl,-⟩ := runs_pure.mp run
      exact isSome_withResult invoked
    · exact isSome_withResult run

theorem isSome_callSupport (run : Runs (callSupport chain routine args) env s dest s') :
    dest.isSome = !routine.header.signature.returnsVoid := by
  obtain ⟨target,_,entered,run⟩ := runs_bind.mp run
  obtain ⟨-,proc,rfl,-⟩ := entered.supportTarget
  split at run
  · exact run.isSome_call
  · exact isSome_withResult run

end Lower.Runs

namespace Flows

theorem supportTarget : Flows env roots chain needs (supportTarget routine) registers := by
  refine still (fun _ => by trivial) (fun run => run.supportTarget.1) fun run => ?_
  obtain ⟨-,proc,rfl,-⟩ := run.supportTarget
  exact nil_subset _

theorem procedureOf : Flows env roots chain needs (procedureOf id) nothing := by
  refine quiet (fun s => ?_) fun run => run.procedureOf.1
  unfold Lower.procedureOf
  simp only [safe_bind,safe_get]
  split
  · trivial
  · simp only [safe_bind,safe_read,safe_lift,safe_onModule,safe_log,safe_modifySymbols,safe_pure]
    exact ⟨fun _ _ => trivial,failsInProgram_getFunction id⟩

theorem directTarget : Flows env roots chain needs (directTarget id) registers :=
  .andThen .read fun _ => .andThen (.lift (failsInProgram_getFunction id)) fun _ => procedureOf.andThen fun _ => .pure (nil_subset _)

theorem callPlain (held : target.registers ++ args ⊆ needs) : Flows env roots chain needs (callPlain target args) Option.toList :=
  plainCall (by rw [uses_of_target]; exact held)

theorem produce {m : Lower (Option Register)} {f : Register → Lower β} {gives : β → List Register}
    (flows : Flows env roots chain needs m Option.toList) (given : ∀ {s dest s'}, Runs m env s dest s' → dest.isSome = true)
    (rest : ∀ r, Flows env roots chain (r :: needs) (f r) gives) :
    Flows env roots chain needs (m >>= fun dest => produced product dest >>= f) gives where
  safe stance held := (flows.safe stance held).and_runs.bind fun dest s' ⟨there,run⟩ => by
    cases dest with
    | none => exact absurd (given run) nofun
    | some r =>
      refine ((rest r).safe there.1 (append_subset_append [r] held)).mono fun _ _ done => ?_
      exact ⟨done.1.keep stance.covered,fun outside => (done.2 outside).trans (there.2 outside)⟩

theorem extractException {record : Register} (held : record ∈ needs) :
    Flows env roots chain needs (extractException record) fun r => [r] := by
  have flows : Flows env roots chain needs ((Lower.supportTarget .beginCatch >>= fun target => Lower.callPlain target [record]) >>=
      fun dest => produced .exception dest >>= fun exception => Lower.supportTarget .endCatch >>= fun target =>
        Lower.callPlain target [] >>= fun _ => Pure.pure exception) fun r => [r] := by
    refine produce (supportTarget.bind fun _ => callPlain ?_) (fun run => ?_) fun r => supportTarget.bind fun _ =>
      (callPlain ?_).bind fun _ => .pure (by simp)
    · exact append_subset_append _ (by simpa using held)
    · obtain ⟨_,_,entered,called⟩ := runs_bind.mp run
      obtain ⟨-,_,rfl,-⟩ := entered.supportTarget
      exact Runs.isSome_withResult called
    · exact append_subset_append _ (nil_subset _)
  exact flows

end Flows

/-- The landing pad of a catching scope is there from now on, and hands the exception to the handler. -/
theorem Stance.landingPadOf (stance : Stance o available ahead known True s) (inside : scope ∈ chain)
    (catches : scope.kind.catches = true) : Safe env (landingPadOf scope.id) s fun pad s' =>
      ∃ anchor supply p c, anchor ⊆ available ∧ Point o available ahead known True supply s' p c ∧
        Known supply p pad.plain anchor ∧ Awaited p ((o.waits.plus ahead).all ++ chain.handlers s'.scopes) pad := by
  obtain ⟨level,member,held⟩ := stance.level inside
  obtain ⟨supply,p,c,point⟩ := stance.point
  obtain ⟨state,found,fits⟩ := point.standing.fits.scope_at member
  refine safe_bind.mpr (safe_scopeState.mpr ?_)
  rw [found,Option.getD_some]
  cases landing : state.landingPad with
  | some pad =>
    obtain ⟨there,awaited⟩ := fits.landingPad landing
    exact ⟨level.anchor,supply,p,c,held,point,there,awaited.named⟩
  | none =>
    refine (stance.labelledBlock "landing.pad" .target held).bind fun pad s₁ stance₁ => ?_
    obtain ⟨supply₁,p₁,c₁,point₁⟩ := stance₁.point
    obtain ⟨state₁,found₁,fits₁⟩ := point₁.standing.fits.scope_at member
    obtain ⟨after,leads,-⟩ := point₁.standing.changeScope (f := fun state => { state with landingPad := some pad }) member found₁
      { fits₁ with
        landingPad := fun same => by
          cases same
          exact ⟨point₁.ahead _ (.head _),.inl (.head _)⟩ } rfl (.inr rfl)
    refine safe_bind.mpr (safe_modifyScope.mpr ?_)
    have stance₂ : Stance o available (⟨pad.plain,level.anchor,.target⟩ :: ahead) known True
        { s₁ with scopes := s₁.scopes.modify scope.id fun state => { state with landingPad := some pad } } :=
      ⟨supply₁,p₁,c₁,point₁.moves after leads (point₁.footing.reorder (by rw [handlers_modify_same found₁ rfl])) point₁.live
        (State.cleanups_modify fun _ => rfl) (.inl rfl) (fun _ => .inl) fun _ => .inl⟩
    refine (stance₂.handlerOf inside catches).bind fun h s₂ ⟨stance₂,given⟩ => ?_
    refine (stance₂.besides (fun point => point.handler member given) fun offers begun => ?_).bind fun _ s₃ stance₃ => ?_
    · refine ((Flows.define (fun _ => rfl) (fun _ => rfl) fun _ => nil_subset _).safe begun fun _ h => h).bind
        fun record s₄ ⟨stance₄,cursor₄⟩ => ?_
      refine ((Flows.extractException (mem_singleton_self record)).safe stance₄ (by simp)).bind fun exception s₅ ⟨stance₅,cursor₅⟩ => ?_
      refine (stance₅.goTo offers ?_ ?_ fun _ => rfl).and_runs.mono fun _ s₆ ⟨done,run⟩ => ⟨⟨_,done⟩,?_⟩
      · exact fun _ h => mem_append_right _ (mem_append_right _ h)
      · exact subset_append_left _ _
      · obtain ⟨b,cursor,joins,-⟩ := stance₅.joins offers run
        rw [cursor₅ rfl,cursor₄ rfl] at cursor
        cases cursor
        exact ⟨_,joins.ends⟩
    · obtain ⟨supply',p',c',point'⟩ := (stance₃.logged (.landingPad pad scope.id)).point
      obtain ⟨there,awaited⟩ := point'.known _ (.head _)
      exact ⟨level.anchor,supply',p',c',held,point'.weaken (.refl _) (fun _ h => h) stance.covered (subset_cons_self _ _),there,
        awaited.later (.refl p') (nil_subset _)⟩

namespace Flows

theorem call (held : target.registers ++ args ⊆ needs) :
    Flows env roots chain needs (call chain target args lifetime) Option.toList where
  safe {o available ahead known s} stance there := by
    have uses : (CallSite.mk target.callee args target.signature lifetime).uses ⊆ needs := by
      rw [uses_of_target]
      exact held
    refine safe_bind.mpr (safe_lift.mpr ⟨fun catcher found => ?_,failsInProgram_catcher⟩)
    cases catcher with
    | none => exact (plainCall uses).safe stance there
    | some id =>
      dsimp only
      split
      · obtain ⟨scope,inside,rfl,catches⟩ := Chain.exists_catcher found
        refine (stance.landingPadOf inside catches).bind fun unwind s₁ ⟨anchor,supply,p,c,held,point,unwinds⟩ => ?_
        refine (point.safe_invoke (fun _ h => there (uses h)) unwinds held).mono fun _ _ done => ⟨done,?_⟩
        rintro rfl
        cases inside
      · exact (plainCall uses).safe stance there

theorem callSupport (held : args ⊆ needs) : Flows env roots chain needs (callSupport chain routine args) Option.toList := by
  refine supportTarget.bind fun target => ?_
  split
  · exact call (append_subset_append _ held)
  · exact callPlain (append_subset_append _ held)

theorem queryThen {f : Register → Lower β} {gives : β → List Register}
    (valued : routine.header.signature.returnsVoid = false) (held : args ⊆ needs)
    (rest : ∀ r, Flows env roots chain (r :: needs) (f r) gives) :
    Flows env roots chain needs (Lower.callSupport chain routine args >>= fun dest => produced product dest >>= f) gives :=
  produce (callSupport held) (fun run => by rw [run.isSome_callSupport,valued]; rfl) rest

theorem query (valued : routine.header.signature.returnsVoid = false) (held : args ⊆ needs) :
    Flows env roots chain needs (Lower.callSupport chain routine args >>= produced product) fun r => [r] := by
  have asked : Flows env roots chain needs (Lower.callSupport chain routine args >>= fun dest =>
      produced product dest >>= pure) fun r => [r] :=
    queryThen valued held fun r => .pure (cons_subset.mpr ⟨.head _,nil_subset _⟩)
  simpa using asked

end Flows

namespace Stance
variable (stance : Stance o available ahead known True s)
include stance

theorem queryThen {r r' : Recurse} {f : Recurse → Register → Lower β} {Q : β → State → Prop}
    (valued : routine.header.signature.returnsVoid = false) (held : args ⊆ available)
    (rest : ∀ register s', Stance o (register :: available) ahead known True s' → Agree env r r' (fun r => f r register) s' Q) :
    Agree env r r' (fun r => callSupport chain routine args >>= fun dest => produced product dest >>= f r) s Q := by
  have flows : Flows env roots chain args (callSupport chain routine args >>= produced product) fun r => [r] :=
    .query valued fun _ h => h
  simpa only [bind_assoc] using (stance.flow flows held).agree.bind rest

theorem throwException {exception : Register} (held : exception ∈ available) :
    Safe env (throwException chain exception) s fun _ s' => Stance o available ahead known False s' := by
  refine safe_bind.mpr (safe_lift.mpr ⟨fun catcher found => ?_,failsInProgram_catcher⟩)
  cases catcher with
  | none =>
    refine (stance.flow .supportTarget (nil_subset _)).bind fun target s₁ stance₁ => ?_
    refine (stance₁.flow (.callPlain fun _ h => h) (append_subset_append _ (by simpa using held))).bind fun _ s₂ stance₂ => ?_
    exact (stance₂.keep stance.covered).unreachable.mono fun _ _ done => done.forget (subset_append_right _ _) stance.covered
  | some id =>
    obtain ⟨scope,inside,rfl,catches⟩ := Chain.exists_catcher found
    obtain ⟨level,member,anchored⟩ := stance.level inside
    refine (stance.handlerOf inside catches).bind fun h s₁ ⟨stance₁,given⟩ => ?_
    refine stance₁.goTo (fun point => ?_) anchored (by simpa [Value.registers,Value.ofRegister] using held) fun _ => rfl
    obtain ⟨there,among⟩ := point.handler member given
    exact ⟨there,.inl (mem_append_right _ among)⟩

end Stance

end

end BlockLowering
