import BlockLowering.Proofs.ArrayContents
/-!
What becomes of factory calls on constants. With folding the constants are static data, and the only instruction loads its
address: nothing is called and nothing is stored, whatever the receivers of the call and the parameters of the factory are.
Without folding the receivers come first. The same constants are then loaded in order and stored into a new array, with which
the factory is called.
-/
namespace BlockLowering
open Lower List ArrayItem
variable {env : Environment} {s s₁ s' : State} {p : Procedure} {c : BlockId} {chain : Chain} {n : Nat} {v : Value} {ty : Ty}
  {factory : ConstantFactory} {constant : Constant} {constants : List Constant} {literal : Literal} {literals : List Literal} {items : List (ArrayItem Expr)}

/-! ### Literals -/

/-- A literal stands for a constant: that of a string is its place in the pool, and all others need none. -/
def StringPool.Denotes (pool : StringPool) : Constant → Literal → Prop
  | .string value, literal => ∃ id, pool.places.get? value = some id ∧ literal = .data id
  | constant, literal => ∀ env s, Runs (literalOf constant) env s literal s

/-- What a literal stands for with one pool it stands for with another one. -/
def StringPool.Extends (pool pool' : StringPool) : Prop := ∀ constant literal, pool.Denotes constant literal → pool'.Denotes constant literal

/-- An item of an array literal is a constant. -/
def ArrayItem.IsConstant (item : ArrayItem Expr) (constant : Constant) : Prop :=
  ∃ ty location, item = .element (.mk (.constant constant) ty location)

theorem StringPool.Extends.trans {pool pool' pool'' : StringPool} (first : pool.Extends pool') (second : pool'.Extends pool'') :
    pool.Extends pool'' := fun _ _ h => second _ _ (first _ _ h)

theorem StringPool.extends_insert {pool : StringPool} {value : String} {id : DataId} (new : pool.places.get? value = none) :
    pool.Extends ⟨pool.places.insert value id⟩ := by
  intro constant literal denotes
  cases constant with
  | string other =>
    obtain ⟨place,found,rfl⟩ := denotes
    have apart : other ≠ value := by
      rintro rfl
      simp [new] at found
    exact ⟨place,(Table.get?_insert_of_ne apart).trans found,rfl⟩
  | _ => exact denotes

theorem Lower.Runs.denotes (run : Runs (Lower.literalOf constant) env s literal s') :
    s'.strings.Denotes constant literal ∧ s.strings.Extends s'.strings := by
  cases constant with
  | string value =>
    simp only [Lower.literalOf,runs_bind,runs_get,runs_set,runs_pure,and_assoc,exists_and_left,exists_eq_left] at run
    obtain ⟨rfl,_,rfl⟩ := run
    cases found : s.strings.places.get? value with
    | some id =>
      simp only [StringPool.intern,found]
      exact ⟨⟨id,found,rfl⟩,fun _ _ h => h⟩
    | none =>
      simp only [StringPool.intern,found]
      exact ⟨⟨_,Table.get?_insert_self,rfl⟩,StringPool.extends_insert found⟩
  | _ =>
    obtain ⟨rfl,rfl⟩ := runs_pure.mp run
    exact ⟨fun _ _ => runs_pure.mpr ⟨rfl,rfl⟩,fun _ _ h => h⟩

theorem Lower.Runs.literalItems (run : Runs (Lower.literalItems items) env s (some literals) s') :
    s.Quiet env s' ∧ s.strings.Extends s'.strings ∧
      ∃ constants, Forall₂ IsConstant items constants ∧ Forall₂ s'.strings.Denotes constants literals := by
  induction items generalizing s literals with
  | nil =>
    obtain ⟨same,rfl⟩ := runs_pure.mp run
    obtain rfl := Option.some.inj same
    exact ⟨.refl env _,fun _ _ h => h,[],.nil,.nil⟩
  | cons item rest ih =>
    unfold Lower.literalItems at run
    split at run
    · rename_i same
      cases same
    · rename_i value ty location others same
      obtain ⟨rfl,rfl⟩ := cons.inj same
      obtain ⟨literal,s₁,first,run⟩ := runs_bind.mp run
      obtain ⟨found,s₂,more,run⟩ := runs_bind.mp run
      obtain ⟨same,rfl⟩ := runs_pure.mp run
      obtain ⟨literals,rfl,rfl⟩ := Option.map_eq_some_iff.mp same.symm
      obtain ⟨denotes,further⟩ := first.denotes
      obtain ⟨quiet,extends',constants,are,stand⟩ := ih more
      exact ⟨first.literalOf.trans quiet,further.trans extends',value :: constants,.cons ⟨ty,location,rfl⟩ are,
        .cons (extends' _ _ denotes) stand⟩
    · cases (runs_pure.mp run).1

/-! ### With folding -/

/-- An environment in which factory calls are folded. -/
def Environment.folding (env : Environment) : Environment := { env with settings := { env.settings with foldFactories := true } }

theorem Environment.folding_of (folds : env.settings.foldFactories = true) : env.folding = env := by
  rw [folding,← folds]

/-- Static data is what a factory makes of literals: an array of them, to which a list adds their number. -/
def Module.Lists (m : Module) (factory : ConstantFactory) (type : NativeType) (literals : List Literal) (data : DataId) : Prop :=
  ∃ array, (m.data.get? array).map StaticDatum.contents = some (.array type literals) ∧
    match factory with
    | .arrayOf => data = array
    | .listOf => (m.data.get? data).map StaticDatum.contents = some (.aggregate [.i32 (.ofInt literals.length),.data array])

/-- The only instruction between two points loads the address of what a factory makes of constants: an array of their literals,
    in order, with their number if it is a list. -/
def Folds (factory : ConstantFactory) (type : NativeType) (constants : List Constant) (ty : Ty) (s : State) (v : Value) (s' : State) : Prop :=
  ∃ result data literals, v = .ofRegister result ty ∧ s.Appends s' [.const result (.data data)] ∧
    Forall₂ s'.strings.Denotes constants literals ∧ s'.builder.output.Lists factory type literals data

theorem Lower.Runs.data_define {type : NativeType} {instr : Register → Instr} {r : Register}
    (run : Runs (build (Build.define type instr)) env s r s') :
    s'.builder.output.data = s.builder.output.data ∧ s'.strings = s.strings := by
  obtain ⟨p,c,_,_,_,here,cursor,-⟩ := run.appends_define
  obtain ⟨b,built,rfl⟩ := runs_build.mp run
  obtain ⟨-,_,-,-,rfl⟩ := built.define here cursor
  refine ⟨?_,rfl⟩
  unfold Builder.put Builder.modifyProcedure
  cases s.builder.current <;> rfl

theorem Lower.Runs.placeFactory {type : NativeType} {data : DataId} (run : Runs (Lower.placeFactory factory type literals) env s data s') :
    s.Quiet env s' ∧ s'.strings = s.strings ∧ s'.builder.output.Lists factory type literals data := by
  obtain ⟨array,s₁,first,rest⟩ := runs_bind.mp run
  have quiet : s.Quiet env s₁ := first.place fun m => ⟨_,_,_,rfl⟩
  obtain ⟨rfl,rfl⟩ := runs_onModule.mp first
  cases factory with
  | arrayOf =>
    obtain ⟨rfl,rfl⟩ := runs_pure.mp rest
    exact ⟨quiet,rfl,_,congrArg (Option.map _) Table.get?_insert_self,rfl⟩
  | listOf =>
    have quiet' := rest.place fun m => ⟨_,_,_,rfl⟩
    obtain ⟨rfl,rfl⟩ := runs_onModule.mp rest
    refine ⟨quiet.trans quiet',rfl,_,congrArg (Option.map _) ((Table.get?_insert_of_ne ?_).trans Table.get?_insert_self),
      congrArg (Option.map _) Table.get?_insert_self⟩
    simp [Module.placeArray,Module.addDatum]

theorem Lower.Runs.foldFactory {arguments : List (Option Expr)}
    (run : Runs (Lower.foldFactory factory arguments ty) env s (some v) s') :
    ∃ elementType items itemsType location constants, arguments = [some (.mk (.arrayLiteral elementType items) itemsType location)] ∧
      Forall₂ IsConstant items constants ∧ Folds factory elementType.storage constants ty s v s' := by
  obtain ⟨_,_,asked,next⟩ := runs_bind.mp run
  obtain ⟨rfl,rfl⟩ := runs_read.mp asked
  split at next
  · split at next
    · rename_i elementType items itemsType location
      obtain ⟨found,s₁,listed,next⟩ := runs_bind.mp next
      cases found with
      | none => cases (runs_pure.mp next).1
      | some literals =>
        obtain ⟨data,s₂,placed,next⟩ := runs_bind.mp next
        obtain ⟨_,s₃,logged,next⟩ := runs_bind.mp next
        obtain ⟨result,s₄,loaded,next⟩ := runs_bind.mp next
        obtain ⟨same,rfl⟩ := runs_pure.mp next
        obtain rfl := Option.some.inj same
        obtain rfl := runs_log.mp logged
        obtain ⟨quiet,-,constants,are,stand⟩ := listed.literalItems
        obtain ⟨quiet',pool,lists⟩ := placed.placeFactory
        obtain ⟨kept,pool'⟩ := loaded.data_define
        refine ⟨elementType,items,itemsType,location,constants,rfl,are,result,data,literals,rfl,?_,?_,?_⟩
        · exact loaded.appends_define.after ((quiet.trans quiet').trans (.logged _ _ _))
        · rw [pool',pool]
          exact stand
        · unfold Module.Lists at lists ⊢
          rw [kept]
          exact lists
    · cases (runs_pure.mp next).1
  · cases (runs_pure.mp next).1

/-! ### Without folding -/

/-- The code between two points loads constants in order, each into a register of its own, and builds an array of what these hold. -/
def Assembles (constants : List Constant) (ty : Ty) (s : State) (v : Value) (s' : State) : Prop :=
  ∃ registers literals s₁, registers.Nodup ∧ registers.length = literals.length ∧ Forall₂ s₁.strings.Denotes constants literals ∧
    s.Appends s₁ (zipWith Instr.const registers literals) ∧ ∀ m : Machine, Builds s₁ m (registers.map m.registers) ty v s'

theorem Lower.Runs.loadsConstant {location : Location} (run : Runs (lowerWithin n chain (.mk (.constant constant) ty location)) env s v s')
    (stands : s.Stands p c) (isOpen : p.IsOpen c) : ∃ literal p', v = .ofRegister ⟨p.nextRegister⟩ ty ∧
      s.Appends s' [.const ⟨p.nextRegister⟩ literal] ∧ s'.strings.Denotes constant literal ∧ s.strings.Extends s'.strings ∧
      s'.Stands p' c ∧ p'.IsOpen c ∧ p.nextRegister < p'.nextRegister := by
  cases n with
  | zero => exact absurd run runs_throw
  | succ n =>
    have next := Runs.stepNode run (stands.notEnded isOpen)
    obtain ⟨literal,s₁,given,next⟩ := runs_bind.mp next
    obtain ⟨register,s₂,loaded,next⟩ := runs_bind.mp next
    obtain ⟨rfl,rfl⟩ := runs_pure.mp next
    obtain ⟨denotes,further⟩ := given.denotes
    have quiet := (State.Quiet.logged env s _).trans given.literalOf
    have stands := stands.quiet quiet
    have appends := loaded.appends_define.after quiet
    obtain ⟨-,pool⟩ := loaded.data_define
    obtain ⟨b,built,rfl⟩ := runs_build.mp loaded
    obtain ⟨rfl,k,found,ended,rfl⟩ := built.define stands.procedure stands.cursor
    refine ⟨literal,_,rfl,appends,pool ▸ denotes,pool ▸ further,stands.put,?_,Nat.lt_succ_self _⟩
    exact (Procedure.isOpen_modifyBlock (p := (p.allocRegister _).2) (f := fun k => k.append _) fun _ => rfl).mpr ⟨k,found,ended⟩

theorem Lower.Runs.loadsConstants {found : Option (List (ArrayItem Register))} (are : Forall₂ IsConstant items constants)
    (run : Runs (Lower.evalItems (lowerWithin n) chain items) env s found s') (stands : s.Stands p c) (isOpen : p.IsOpen c) :
    ∃ registers literals, found = some (registers.map .element) ∧ registers.length = literals.length ∧
      Forall₂ s'.strings.Denotes constants literals ∧ s.strings.Extends s'.strings ∧
      s.Appends s' (zipWith Instr.const registers literals) ∧ registers.Nodup ∧ ∀ r ∈ registers, p.nextRegister ≤ r.index := by
  induction are generalizing s s' p found with
  | nil =>
    obtain ⟨rfl,rfl⟩ := runs_pure.mp run
    obtain ⟨k,there,-⟩ := isOpen
    exact ⟨[],[],rfl,rfl,.nil,fun _ _ h => h,⟨p,c,k,p,k,stands.procedure,stands.cursor,there,stands.procedure,stands.cursor,there,
      (append_nil _).symm⟩,nodup_nil,by simp⟩
  | cons first _ ih =>
    obtain ⟨ty,location,rfl⟩ := first
    obtain ⟨value,s₁,evaluated,next⟩ := runs_bind.mp run
    obtain ⟨v,lowered,result⟩ := evaluated.eval
    obtain ⟨literal,p₁,rfl,appends,denotes,further,stands₁,isOpen₁,more⟩ := lowered.loadsConstant stands isOpen
    -- A constant has a register and leaves the block open, so the rest is reached.
    rcases result with ⟨-,nowhere | closed⟩ | ⟨rfl,-⟩
    · cases nowhere
    · rw [State.Closed,stands₁.notEnded isOpen₁] at closed
      cases closed
    · obtain ⟨register,s₂,held,remaining⟩ := runs_bind.mp next
      obtain ⟨rfl,rfl⟩ := runs_pure.mp held
      obtain ⟨others,s₃,rest,last⟩ := runs_bind.mp remaining
      obtain ⟨registers,literals,rfl,same,stand,further',appends',apart,behind⟩ := ih rest stands₁ isOpen₁
      obtain ⟨rfl,rfl⟩ := runs_pure.mp last
      refine ⟨⟨p.nextRegister⟩ :: registers,literal :: literals,rfl,congrArg (· + 1) same,.cons (further' _ _ denotes) stand,
        further.trans further',appends.trans appends',nodup_cons.mpr ⟨fun inside => ?_,apart⟩,fun r inside => ?_⟩
      · exact absurd (behind _ inside) (Nat.not_le.mpr more)
      · rcases mem_cons.mp inside with rfl | inside
        · exact Nat.le_refl _
        · exact Nat.le_trans (Nat.le_of_lt more) (behind r inside)

/-! ### With and without folding -/

/-- A factory call that can be folded is one on constants, and with folding that is all that becomes of it. Where calls are not
    folded, its receivers are evaluated, the constants are put into an array, and the factory, which has one parameter, is
    called with the receivers and the array. -/
def FoldsAlike (env : Environment) : Expectation := fun r chain e s v s' =>
  ∀ {call function factory v₁ s₁}, e.node = .call call → s.builder.isTerminated = false → env.decls.getFunction call.function = .ok function →
    function.constantFactory = some factory → Runs (foldFactory factory call.arguments e.ty) env.folding (s.noting e) (some v₁) s₁ →
    ∃ elementType items itemsType location constants,
      call.arguments = [some (.mk (.arrayLiteral elementType items) itemsType location)] ∧ Forall₂ IsConstant items constants ∧
      Runs (lowerCall r chain call e.ty) env.folding (s.noting e) v₁ s₁ ∧
      Folds factory elementType.storage constants e.ty (s.noting e) v₁ s₁ ∧
      (env.settings.foldFactories = true → v = v₁ ∧ s' = s₁) ∧
      (env.settings.foldFactories = false → constants.length < 2 ^ 31 → ∃ found s₂,
        Runs (evalAll r chain (call.dispatchReceiver.toList ++ call.extensionReceiver.toList)) env (s.noting e) found s₂ ∧
        match found with
        | none => v = .unreachable e.ty ∧ s' = s₂
        | some receivers => function.parameters.length = 1 ∧ ∃ array s₃, Assembles constants itemsType s₂ (.ofRegister array itemsType) s₃ ∧
            Runs (applyCall chain function call (receivers ++ [array]) e.ty) env s₃ v s')

theorem Lower.Runs.evalArgument {r : Recurse} {function : FunctionDecl} {e : Expr} {found : Option (List Register)}
    (run : Runs (Lower.evalArguments r chain function [some e]) env s found s') :
    function.parameters.length = 1 ∧ Runs (Lower.evalAll r chain [e]) env s found s' := by
  obtain ⟨_,_,asked,next⟩ := runs_bind.mp run
  obtain ⟨rfl,rfl⟩ := runs_read.mp asked
  have missing : missingArgument? function.parameters.length [some e] = if 1 < function.parameters.length then some 1 else none := rfl
  dsimp only at next
  split at next
  · obtain ⟨_,_,failed,-⟩ := runs_bind.mp next
    exact absurd failed runs_throw
  · rename_i enough
    rw [missing] at next
    by_cases fewer : 1 < function.parameters.length
    · rw [if_pos fewer] at next
      exact absurd next runs_throw
    · rw [if_neg fewer] at next
      rw [length_singleton] at enough
      exact ⟨by omega,next⟩

/-- The array that a literal of constants leads to. -/
theorem Stance.assembles {o : Outset env (fun _ => True) chain} {available : List Register} {ahead : List Ahead} {known : List Joint}
    {elementType : Ty} {location : Location} (stance : Stance o available ahead known True s) (are : Forall₂ IsConstant items constants)
    (few : constants.length < 2 ^ 31) (small : chain.weight + (Expr.mk (.arrayLiteral elementType items) ty location).size ≤ n)
    (run : Runs (lowerWithin n chain (.mk (.arrayLiteral elementType items) ty location)) env s v s') :
    ∃ array, v = .ofRegister array ty ∧ Assembles constants ty s v s' ∧ ¬ s'.Closed := by
  have alive := stance.notEnded trivial
  have after := ((lowers_lowerWithin n).agree ⟨small,.root trivial⟩ stance).2.of_runs run
  cases n with
  | zero => exact absurd run runs_throw
  | succ n =>
    obtain ⟨found,s₁,evaluated,-⟩ := runs_bind.mp (Runs.stepNode run alive)
    obtain ⟨supply,p,c,point⟩ := stance.point
    have stands : (s.noting (.mk (.arrayLiteral elementType items) ty location)).Stands p c :=
      ⟨point.standing.stands.procedure,point.standing.stands.cursor⟩
    obtain ⟨registers,literals,rfl,same,stand,-,appends,apart,-⟩ := Runs.loadsConstants are evaluated stands (point.live.mpr trivial)
    have builds (m : Machine) : Builds s₁ m (registers.map m.registers) ty v s' := by
      have adds : Forall₂ (ArrayItem.Adds (((registers.map .element).map ArrayItem.expression).map fun r => (r, m.registers r)) m.memory.arrays)
          (registers.map .element) (registers.map fun r => [m.registers r]) := by
        rw [forall₂_map_left_iff,forall₂_map_right_iff,map_map]
        exact forall₂_same.mpr fun r inside => ⟨_,mem_map_of_mem (mem_map_of_mem inside),rfl⟩
      have flat : (registers.map fun r => [m.registers r]).flatten = registers.map m.registers := by
        rw [← flatMap_def,← map_eq_flatMap]
      have built := met_builds env small stance run rfl alive evaluated adds
        (by rwa [flat,length_map,same,← stand.length_eq])
      rwa [flat] at built
    obtain ⟨array,_,_,rfl,-⟩ := builds ⟨fun _ => .other 0,⟨[],[]⟩⟩
    exact ⟨array,rfl,⟨registers,literals,s₁,apart,same,stand,appends,builds⟩,fun closed => after.isTerminated.mp closed rfl⟩

theorem met_foldsAlike (env : Environment) : Met env (FoldsAlike env) := by
  intro depth chain e o available ahead known live s v s' small stance run call function factory v₁ s₁ node alive declared made folded
  obtain ⟨_,ty,location⟩ := e
  obtain rfl : _ = _ := node
  obtain ⟨elementType,items,itemsType,place,constants,argument,are,folds⟩ := folded.foldFactory
  have whole : Runs (lowerCall (lowerWithin depth) chain call ty) env.folding (s.noting (.mk (.call call) ty location)) v₁ s₁ := by
    refine runs_bind.mpr ⟨_,_,runs_read.mpr ⟨rfl,rfl⟩,runs_bind.mpr ⟨function,_,runs_lift.mpr ⟨declared,rfl⟩,?_⟩⟩
    rw [made]
    exact runs_bind.mpr ⟨_,_,folded,runs_pure.mpr ⟨rfl,rfl⟩⟩
  refine ⟨elementType,items,itemsType,place,constants,argument,are,whole,folds,fun on => ?_,fun off few => ?_⟩
  · rw [Environment.folding_of on] at whole
    obtain ⟨same,rfl⟩ := Prod.mk.inj ((Runs.stepNode run alive).symm.trans whole)
    exact ⟨Except.ok.inj same,rfl⟩
  · have child : ∀ {x}, x ∈ (Node.call call).children → Admits (fun _ => True) depth chain x := fun inside => by
      have part := Expr.size_le_nodeSize inside
      simp only [Expr.size] at small
      exact ⟨by omega,.root trivial⟩
    obtain ⟨_,_,asked,next⟩ := runs_bind.mp (Runs.stepNode run alive)
    obtain ⟨rfl,rfl⟩ := runs_read.mp asked
    obtain ⟨function',_,there,next⟩ := runs_bind.mp next
    obtain ⟨found,rfl⟩ := runs_lift.mp there
    obtain rfl := Except.ok.inj (declared.symm.trans found)
    rw [made] at next
    obtain ⟨answer,_,asked,next⟩ := runs_bind.mp next
    obtain ⟨rfl,rfl⟩ : answer = none ∧ _ = _ := by
      obtain ⟨_,_,first,asked⟩ := runs_bind.mp asked
      obtain ⟨rfl,rfl⟩ := runs_read.mp first
      rw [if_neg (by simp [off])] at asked
      exact runs_pure.mp asked
    -- Only here, behind the receivers, is the argument looked at.
    obtain ⟨receivers,s₂,evaluated,next⟩ := runs_bind.mp next
    refine ⟨receivers,s₂,evaluated,?_⟩
    cases receivers with
    | none => exact runs_pure.mp next
    | some receivers =>
      obtain ⟨args,s₃,supplied,next⟩ := runs_bind.mp next
      rw [argument] at supplied
      obtain ⟨one,supplied⟩ := supplied.evalArgument
      obtain ⟨value,s₄,lowered,supplied⟩ := runs_bind.mp supplied
      obtain ⟨w,lowered,result⟩ := lowered.eval
      have admits : ∀ x ∈ call.dispatchReceiver.toList ++ call.extensionReceiver.toList, Admits (fun _ => True) depth chain x :=
        fun x inside => child (mem_append_left _ inside)
      have last : .mk (.arrayLiteral elementType items) itemsType place ∈ (Node.call call).children := by simp [Node.children,argument]
      have stance := (((lowers_lowerWithin depth).evalAll admits).agree (stance.noting alive _) (nil_subset _)).2.of_runs evaluated
      obtain ⟨array,rfl,assembles,goesOn⟩ := (stance.congr (iff_of_true rfl trivial)).assembles are few (child last).small lowered
      rcases result with ⟨-,nowhere | closed⟩ | ⟨rfl,-⟩
      · cases nowhere
      · exact absurd closed goesOn
      · obtain ⟨register,_,held,rest⟩ := runs_bind.mp supplied
        obtain ⟨rfl,rfl⟩ := runs_pure.mp held
        obtain ⟨_,_,ended,rest⟩ := runs_bind.mp rest
        obtain ⟨rfl,rfl⟩ := runs_pure.mp ended
        obtain ⟨rfl,rfl⟩ := runs_pure.mp rest
        exact ⟨one,_,_,assembles,next⟩

/-- Folding a factory call agrees with calling the factory, up to the receivers and the number of parameters: no program is lowered
    differently if that is checked wherever a call has been lowered. -/
theorem lowerProgram_folds_alike (env : Environment) (strings : StringPool) (units : List SourceUnit) :
    observedProgram (FoldsAlike env) env strings units = lowerProgram env strings units :=
  observedProgram_eq (met_foldsAlike env) strings units

/-- A function that returns a list of two constants. The list is asked of another function's result. -/
def factoryDecls : Declarations := .ofLists []
  [.topLevel ⟨0⟩ "f" [] .object, { FunctionDecl.topLevel ⟨1⟩ "g" [] .object with isExternal := true },
    { FunctionDecl.topLevel ⟨2⟩ "listOf" [⟨⟨1⟩,"xs",.object⟩] .object with
      extensionReceiver := some ⟨⟨0⟩,"x",.object⟩, constantFactory := some .listOf, isExternal := true }] []

def factoryUnit : SourceUnit :=
  ⟨"m",[⟨⟨0⟩,.returnFrom ⟨0⟩ (.mk (.call ⟨⟨2⟩,none,some (.call ⟨1⟩ [] .object),
    [some (.mk (.arrayLiteral .int [.element (.int 1),.element (.int 2)]) .object .unknown)],none,.irrelevant⟩) .object .unknown)⟩],[]⟩

/-- With folding the other function is not called, and without it is called first. -/
theorem factoryUnit_drops_receiver :
    (∃ m p k, (lowerModule .development factoryDecls [factoryUnit]).result = .ok m ∧ m.procedures.get? ⟨0⟩ = some p ∧
      p.graph.block? .first = some k ∧ k.instrs = [.const ⟨0⟩ (.data ⟨1⟩)]) ∧
    ∃ m p k, (lowerModule { Settings.development with foldFactories := false } factoryDecls [factoryUnit]).result = .ok m ∧
      m.procedures.get? ⟨0⟩ = some p ∧ p.graph.block? .first = some k ∧
      k.instrs.head? = some (.call (some ⟨0⟩) ⟨.direct ⟨1⟩,[],⟨[],.ptr⟩,.irrelevant⟩) :=
  ⟨exists_block _ _ _ _ _ _ (by decide +kernel),exists_block _ _ _ _ _ _ (by decide +kernel)⟩

end BlockLowering
