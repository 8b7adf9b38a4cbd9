import BlockLowering.Proofs.FinalizedExits
import BlockLowering.Proofs.Numbers
/-!
Instance tests. Control goes through the blocks of a test: from the comparison with null over one of two ways to the block
that merges their answers. What is merged there is whether null belongs to the target, or what the library says of the
object; but a primitive belongs only to its own type, so not even to the type that every other object belongs to.
-/
namespace BlockLowering
open Lower List Procedure Builder Option Instr Block Terminator Value
variable {registers₀ : Registers} {type : NativeType} {instr : Register → Instr} {supply : Supply} {label : String} {u : Unit}
  {member : Scalar → Bool}

/-! ### Control -/

/-- The block that control goes on to. -/
def Terminator.target? (registers : Registers) : Terminator → Option BlockId
  | .branch x => some x
  | .condBranch condition onTrue onFalse =>
    match registers condition with
    | .bits 1 b => some (if b = 1 then onTrue else onFalse)
    | _ => none
  | _ => none

/-- The registers at the head of a block, where each phi has got the value of the edge. -/
def BlockView.merged (k : BlockView) (source : BlockId) (registers : Registers) : Registers := fun r =>
  registers (((k.phis.find? fun phi => phi.dest = r).bind fun phi => phi.incoming.lookup source).getD r)

/-- Control goes on from a block, of which some code is left, to the end of one that has no terminator yet. -/
inductive Procedure.Goes (answer : Answers) (p : Procedure) : BlockId → List Instr → Registers → BlockId → Registers → Prop
  | stay {b code registers registers' k} (ran : code.foldlM (exec answer) registers = some registers') (found : p.view? b = some k)
    (isOpen : k.terminator = none) : Goes answer p b code registers b registers'
  | move {b code registers registers' k t x k' y registers''} (ran : code.foldlM (exec answer) registers = some registers')
    (found : p.view? b = some k) (ends : k.terminator = some t) (next : t.target? registers' = some x) (there : p.view? x = some k')
    (rest : Goes answer p x k'.code (k'.merged b registers') y registers'') : Goes answer p b code registers y registers''

/-- From the end of a block control gets to where a later state stands, and then a register holds a value. -/
def Procedure.Computes (answer : Answers) (p : Procedure) (c : BlockId) (registers : Registers) (s : State) (r : Register) (x : Scalar) : Prop :=
  ∃ k p' c' k' code registers', p.view? c = some k ∧ s.Stands p' c' ∧ p'.view? c = some k' ∧ k'.code = k.code ++ code ∧
    p'.Goes answer c code registers c' registers' ∧ registers' r = x

section
variable {env : Environment} {answer : Answers} {p₀ p p' : Procedure} {b c m x : BlockId} {s s' : State} {registers registers' : Registers}
  {held : List (Register × Scalar)} {y : Scalar} {r dest : Register} {chain : Chain} {target : Ty} {v result : Value} {code more : List Instr}

namespace Procedure

theorem isOpen_iff_view? : p.IsOpen c ↔ ∃ k, p.view? c = some k ∧ k.terminator = none := by
  simp [IsOpen,view?]

theorem Goes.isOpen (goes : p.Goes answer b code registers x registers') : p.IsOpen x := by
  induction goes with
  | stay _ found isOpen => exact isOpen_iff_view?.mpr ⟨_,found,isOpen⟩
  | move _ _ _ _ _ _ ih => exact ih

theorem Goes.before (goes : p.Goes answer b code registers x registers')
    (ran : more.foldlM (exec answer) registers₀ = some registers) : p.Goes answer b (more ++ code) registers₀ x registers' := by
  cases goes with
  | stay ran' found isOpen => exact .stay (by rw [foldlM_append,ran]; exact ran') found isOpen
  | move ran' found ends next there rest => exact .move (by rw [foldlM_append,ran]; exact ran') found ends next there rest

/-- Code that is put behind the block where control ends is executed last. -/
theorem Goes.append {registers'' : Registers} (goes : p.Goes answer b code registers x registers') (continues : p.Continues x more p')
    (ran : more.foldlM (exec answer) registers' = some registers'') :
    p'.Goes answer b (if b = x then code ++ more else code) registers x registers'' := by
  induction goes with
  | stay ran' found isOpen =>
    refine .stay ?_ (continues.here found) isOpen
    rw [if_pos rfl,foldlM_append,ran']
    exact ran
  | @move b _ _ _ k t x k' y _ ran' found ends next there rest ih =>
    have apart : b ≠ y := by
      rintro rfl
      obtain ⟨_,found',isOpen⟩ := isOpen_iff_view?.mp rest.isOpen
      obtain rfl := mem_unique found found'
      simp [ends] at isOpen
    have goes := ih continues ran
    rw [if_neg apart]
    refine .move ran' ((continues b).trans (congrArg _ found)) (by simpa [apart] using ends) next ((continues x).trans (congrArg _ there)) ?_
    by_cases last : x = y <;> simp only [last,if_true,if_false] at goes ⊢ <;> exact goes

theorem Computes.before (computes : p.Computes answer c registers s r y) (kept : ∀ {k}, p'.view? c = some k → p.view? c = some k)
    (continues : p₀.Continues c code p') (isOpen : p₀.IsOpen c) (ran : code.foldlM (exec answer) registers₀ = some registers) :
    p₀.Computes answer c registers₀ s r y := by
  obtain ⟨k,found,-⟩ := isOpen_iff_view?.mp isOpen
  have view := kept (continues.here found)
  obtain ⟨_,p₁,c₁,k₁,code₁,registers₁,view',stands,there,more,goes,holds⟩ := computes
  obtain rfl := mem_unique view view'
  exact ⟨k,p₁,c₁,k₁,code ++ code₁,registers₁,found,stands,there,by simpa using more,goes.before ran,holds⟩

theorem Computes.define {z : Scalar} {b : Builder} (computes : p.Computes answer c registers s r y)
    (built : Build.Runs (Build.define type instr) s.builder dest b) (defines : (instr dest).dest? = some dest)
    (result : ∀ {registers}, registers r = y → (instr dest).result? answer registers = some z) :
    p.Computes answer c registers { s with builder := b } dest z := by
  obtain ⟨k,p₁,c₁,k₁,code,registers₁,view,stands,view₁,extends₁,goes,holds⟩ := computes
  obtain ⟨rfl,-,-,-,rfl⟩ := built.define stands.procedure stands.cursor
  have given := result holds
  have continues : p₁.Continues c₁ _ (p₁.defining c₁ type instr) := continues_defining (isAlloc_of_result? given)
  have goes := goes.append continues (show _ = some (Function.update registers₁ ⟨p₁.nextRegister⟩ z) by simp [exec,defines,given])
  refine ⟨k,_,c₁,_,_,_,view,stands.put,(continues c).trans (congrArg _ view₁),?_,goes,Function.update_self ..⟩
  by_cases same : c = c₁ <;> simp [same,extends₁]

/-! ### Blocks -/

theorem Gains.view? {supply' : Supply} {counted : List Register} {merges : List Phi} (gains : p.Gains supply supply' p' b counted merges) :
    p'.view? b = some ⟨merges,[],none⟩ ∧ ∀ {x k}, p.view? x = some k → x ≠ b ∧ p'.view? x = some k := by
  obtain ⟨k,found,code,ended,-,phis,-⟩ := gains.blank
  refine ⟨by simp [Procedure.view?,found,code,ended,phis],fun {x k} there => ?_⟩
  have other : x ≠ b := fun same => by simp [same,Procedure.view?,gains.absent] at there
  exact ⟨other,by rwa [Procedure.view?,gains.others other]⟩

theorem view?_close {t : Terminator} : (p.close c t).view? x = (p.view? x).map fun k => if x = c then { k with terminator := some t } else k := by
  rw [view?,view?,block?_close,Option.map_map,Option.map_map]
  refine Option.map_congr fun k _ => ?_
  by_cases here : x = c <;> simp [here,whenClosed,code]

theorem view?_jump : (p.jump c m dest r).view? x = (p.view? x).map fun k =>
    ⟨if x = m then Build.withIncoming dest (c, r) k.phis else k.phis,k.code,if x = c then some (.branch m) else k.terminator⟩ := by
  rw [view?,view?,block?_jump,Option.map_map,Option.map_map]
  refine Option.map_congr fun k _ => ?_
  by_cases here : x = c <;> simp [here,whenJumped,whenClosed,code]

end Procedure

namespace Lower.Runs

theorem blank (run : Runs (build (Build.labelledBlock label)) env s b s') (stands : s.Stands p c)
    (sound : p.Sound supply) : ∃ supply' p', s' = s.put p' ∧ p.Gains supply supply' p' b [] [] := by
  obtain ⟨_,built,rfl⟩ := runs_build.mp run
  obtain ⟨rfl,p',made,rfl⟩ := built.labelledBlock stands.procedure
  exact ⟨_,p',rfl,.labelled sound (by simp) made⟩

theorem merge {k : Continuation} (run : Runs (Lower.newContinuation .boolean label) env s k s')
    (stands : s.Stands p c) (sound : p.Sound supply) :
    ∃ supply' p' m dest, s' = s.put p' ∧ k = ⟨m,some dest,.boolean⟩ ∧ p.Gains supply supply' p' m [] [⟨dest,[],.bool⟩] := by
  obtain ⟨m,s₁,made,run⟩ := runs_bind.mp run
  obtain ⟨supply₁,p₁,rfl,gains⟩ := made.blank stands sound
  obtain ⟨dest,s₂,merged,run⟩ := runs_bind.mp run
  obtain ⟨rfl,rfl⟩ := runs_pure.mp run
  obtain ⟨_,built,rfl⟩ := runs_build.mp merged
  obtain ⟨rfl,⟨k,found⟩,rfl⟩ := built.phi (procedure?_put stands.procedure)
  refine ⟨supply₁,_,m,_,?_,rfl,(gains.allocRegister .bool).addPhi .bool (gains.sound.fresh .bool found)⟩
  simp only [State.put,put_put]
  rfl

theorem jumps {ty ty' : Ty} (run : Runs (jump ⟨m,some dest,ty⟩ (.ofRegister r ty')) env s u s') (stands : s.Stands p c)
    (isOpen : p.IsOpen c) : s' = s.put (p.jump c m dest r) := by
  simp only [jump,runs_bind,runs_isTerminated,stands.notEnded isOpen,Bool.false_eq_true,if_false,and_assoc,exists_and_left,exists_eq_left,
    materialize,ofRegister,runs_pure] at run
  obtain ⟨source,s₁,inserted,run⟩ := run
  obtain ⟨_,built,rfl⟩ := runs_build.mp inserted
  obtain ⟨atCursor,rfl⟩ := Build.runs_insertionBlock.mp built
  obtain rfl := mem_unique stands.cursor atCursor
  obtain ⟨_,built,rfl⟩ := runs_build.mp run
  obtain ⟨_,_,closed,recorded⟩ := Build.runs_bind.mp built
  obtain ⟨-,-,-,rfl⟩ := closed.terminate stands.procedure stands.cursor
  obtain rfl := recorded.addIncoming (procedure?_put stands.procedure)
  simp only [State.put,put_put]
  rfl

theorem enters (run : Runs (build (Build.switchTo b)) env (s.put p) u s') (here : s.builder.procedure? = some p₀)
    (named : s.Named env) (same : p.name = p₀.name) : s'.Stands p b ∧ s'.Named env ∧ s.builder.output.Keeps s'.builder.output ∧ s'.symbols = s.symbols := by
  simp only [runs_build,Build.runs_switchTo,exists_eq_left] at run
  subst run
  obtain ⟨named,keeps⟩ := named.put here same
  exact ⟨⟨procedure?_put here,rfl⟩,⟨named.numbered,named.functions,named.globals⟩,keeps,rfl⟩

theorem resumes {ty : Ty} {k : BlockView} (run : Runs (resumeAt ⟨m,some dest,ty⟩) env (s.put (p.jump c m dest r)) result s')
    (here : s.builder.procedure? = some p) (found : p.view? m = some k) :
    result = .ofRegister dest ty ∧ Runs (build (Build.switchTo m)) env (s.put (p.jump c m dest r)) () s' := by
  obtain ⟨block,found,-⟩ := map_eq_some_iff.mp found
  have reached : (((s.builder.put (p.jump c m dest r)).block? m).map fun b => !b.predecessors.isEmpty) = some true := by
    have edge : c ∈ (block.addPredecessor c).predecessors := mem_addPredecessor.mpr (.inr rfl)
    rw [block?,procedure?_put here]
    simp [block?_jump,found,whenJumped,whenClosed,Terminator.successors,ne_nil_of_mem edge]
  obtain ⟨live,s₁,entered,run⟩ := runs_bind.mp run
  obtain ⟨_,_,moved,entered⟩ := runs_bind.mp entered
  have moved' := moved
  simp only [runs_build,Build.runs_switchTo,exists_eq_left] at moved
  subst moved
  obtain ⟨_,_,got,entered⟩ := runs_bind.mp entered
  obtain ⟨rfl,rfl⟩ := runs_get.mp got
  change Runs (if (!((((s.builder.put (p.jump c m dest r)).block? m).map fun b => !b.predecessors.isEmpty).getD false)) && _ then _ else _) _ _ _ _ at entered
  rw [reached] at entered
  obtain ⟨same,rfl⟩ := runs_pure.mp entered
  obtain rfl : live = true := same.trans (congrArg (getD · false) reached)
  obtain ⟨rfl,rfl⟩ := runs_pure.mp run
  exact ⟨rfl,moved'⟩

end Lower.Runs

/-! ### The code of a test -/

/-- What the library says of a value that is not null. -/
def Ty.confirms (answered : Bool) : Ty → Bool
  | .any _ => true
  | .reference _ _ => answered
  | _ => false

/-- Whether a value of a static type belongs to a type, if the library has its answer for the class. -/
def Ty.tells (target operand : Ty) (x : Scalar) (answered : Bool) : Bool :=
  match operand.primitive? with
  | some kind => target.primitive? = some kind
  | none => if x = .null then target.isNullable else target.confirms answered

/-- The library answers for the class of a type whether a value belongs to it. -/
def Ty.Asked (answer : Answers) (member : Scalar → Bool) (s : State) (target : Ty) : Prop :=
  ∀ cls id d x, target.class? = some cls → s.builder.output.symbol? id = some SupportRoutine.isInstance.symbol →
    s.symbols.globals.get? (.descriptor cls) = some d → answer id [x,.address d] = some (.ofBool (member x))

/-- The value that a completed expression stands for: unit is an object. -/
def Value.Reads (registers : Registers) (v : Value) (x : Scalar) : Prop :=
  match v.form with
  | .register r => x = registers r
  | _ => ∃ d, x = .address d

theorem Ty.Asked.earlier (asked : target.Asked answer member s') (keeps : s.builder.output.Keeps s'.builder.output)
    (same : s'.symbols = s.symbols) : target.Asked answer member s :=
  fun cls id d x given symbol known => asked cls id d x given (keeps.symbols symbol) (same ▸ known)

theorem Value.exists_reads (registers : Registers) (v : Value) : ∃ x, v.Reads registers x := by
  unfold Reads
  split
  · exact ⟨_,rfl⟩
  · exact ⟨_,⟨0⟩,rfl⟩

theorem Value.Reads.plain (reads : v.Reads registers y) (proper : ∀ r ∈ v.registers, ∀ w b, registers r ≠ .bits w b) (w : Nat) (b : BitVec w) :
    y ≠ .bits w b := by
  unfold Reads at reads
  split at reads
  · rename_i r form
    exact reads ▸ proper r (by simp [Value.registers,form]) w b
  · obtain ⟨_,rfl⟩ := reads
    simp

namespace Loaded
variable (loaded : Loaded answer p₀ c registers held s)
include loaded

theorem stands : ∃ p code, s.Stands p c ∧ p.IsOpen c ∧ p₀.Continues c code p := by
  obtain ⟨code,_,p,continues,_,stands,isOpen,_⟩ := loaded.code
  exact ⟨p,code,stands,isOpen,continues⟩

theorem quiet (quiet : s.Quiet env s') : Loaded answer p₀ c registers held s' := by
  obtain ⟨code,registers,p,continues,ran,stands,rest⟩ := loaded.code
  exact ⟨code,registers,p,continues,ran,stands.quiet quiet,rest⟩

theorem const {value : Literal} (run : Runs (build (Build.const value)) env s r s') (known : value.scalar? = some y)
    (plain : value.type.isFloat = false) : Loaded answer p₀ c registers ((r, y) :: held) s' :=
  loaded.define run rfl (fun _ => known) fun _ _ _ => plain

theorem named (run : Runs (build (Build.define type instr)) env s r s') (named : s.Named env) :
    s'.Named env := by
  obtain ⟨p,_,stands,-⟩ := loaded.stands
  obtain ⟨_,built,rfl⟩ := runs_build.mp run
  obtain ⟨-,-,-,-,rfl⟩ := built.define stands.procedure stands.cursor
  exact (named.put stands.procedure (by rfl)).1

variable (named : s.Named env)
include named

theorem address {role : GlobalRole} (run : Runs (do build (Build.const (.global (← globalOf role)))) env s r s') :
    ∃ d, Loaded answer p₀ c registers ((r, .address d) :: held) s' ∧ s'.Named env ∧ s'.symbols.globals.get? role = some d := by
  obtain ⟨d,s₁,entered,made⟩ := runs_bind.mp run
  obtain ⟨quiet,known⟩ := entered.globalOf_entered
  have loaded := loaded.quiet quiet
  refine ⟨d,loaded.const made rfl rfl,loaded.named made (quiet.named named),?_⟩
  obtain ⟨_,-,rfl⟩ := runs_build.mp made
  exact known

theorem materialize (run : Runs (materialize v) env s r s') (own : ∀ r ∈ v.registers, (r, registers r) ∈ held) :
    ∃ x, Loaded answer p₀ c registers [(r, x)] s' ∧ v.Reads registers x := by
  unfold Lower.materialize at run
  unfold Value.Reads
  cases form : v.form with
  | register r =>
    simp only [form,runs_pure] at run
    obtain ⟨rfl,rfl⟩ := run
    exact ⟨_,loaded.mono (by simpa using own r (by simp [Value.registers,form])),rfl⟩
  | unit =>
    simp only [form] at run
    obtain ⟨d,loaded,-⟩ := loaded.address named run
    exact ⟨_,loaded.mono (by simp),d,rfl⟩
  | unreachable => simp [form] at run

theorem query (run : Runs (instanceQuery chain r target) env s dest s') (inside : (r, y) ∈ held) :
    s'.Named env ∧ (∃ p code, s'.Stands p c ∧ p.IsOpen c ∧ p₀.Continues c code p) ∧ ∀ {member}, target.Asked answer member s' →
      Loaded answer p₀ c registers ((dest, .ofBool (target.confirms (member y))) :: held) s' := by
  unfold instanceQuery at run
  cases target with
  | reference cls nullable =>
    simp only [runs_bind,runs_produced] at run
    obtain ⟨descriptor,s₁,addressed,_,s₂,called,rfl,rfl⟩ := run
    obtain ⟨d,loaded,named,known⟩ := loaded.address named addressed
    obtain ⟨routine,s₃,targeted,called⟩ := runs_bind.mp called
    obtain ⟨quiet,id,rfl,symbol⟩ := targeted.supportTarget
    have same : s₃.symbols = s₁.symbols := by
      obtain ⟨-,rfl⟩ := targeted
      rfl
    have loaded := loaded.quiet quiet
    obtain ⟨p,_,stands,isOpen,continues⟩ := loaded.stands
    rw [if_neg (show ¬ SupportRoutine.isInstance.canThrow = true by decide)] at called
    obtain ⟨_,built,rfl⟩ := runs_build.mp called
    rcases (Build.safe_call stands.procedure stands.cursor isOpen _).of_runs built with ⟨none,-⟩ | ⟨given,-,rfl⟩
    · cases none
    · cases given
      have named₃ := quiet.named named
      refine ⟨(named₃.put stands.procedure (by rfl)).1,⟨_,_,stands.put,isOpen_defining.mpr isOpen,
        continues.trans (continues_defining rfl)⟩,fun {member} asked => ?_⟩
      refine (loaded.defining stands.procedure rfl (fun holds => ?_) fun _ _ _ => rfl).mono (cons_subset_cons _ (subset_cons_self _ _))
      rw [result?,map_cons,map_cons,map_nil,holds _ (.head _),holds _ (.tail _ inside)]
      exact asked cls id d y rfl ((named₃.put stands.procedure (by rfl)).2.symbols (symbol named)) (same ▸ known)
  | _ => exact ⟨loaded.named run named,(loaded.const run rfl rfl).stands,fun _ => loaded.const run rfl rfl⟩

end Loaded

/-- Blocks for both answers to a test, and for what follows them. -/
structure Procedure.Forks (p : Procedure) (c m null test : BlockId) (dest : Register) : Prop where
  meeting : p.view? m = some ⟨[⟨dest,[],.bool⟩],[],none⟩
  onNull : p.view? null = some ⟨[],[],none⟩
  onObject : p.view? test = some ⟨[],[],none⟩
  apart : c ≠ m ∧ c ≠ null ∧ c ≠ test ∧ m ≠ null ∧ m ≠ test ∧ null ≠ test

/-- Control comes from the comparison with null over one of two ways to where they meet. -/
theorem Loaded.fork {null test : BlockId} {object : Register} (loaded : Loaded answer p c registers [(object, y)] s) (isOpen : p.IsOpen c)
    (forks : p.Forks c m null test dest) (named : s.Named env) (plain : ∀ w b, y ≠ .bits w b) (run : Runs (do
      let onNull ← build do
        let nothing ← Build.null
        let isNull ← Build.compare .eq object nothing
        Build.condBranch isNull null test
        Build.switchTo null
        Build.bool target.isNullable
      jump ⟨m,some dest,.boolean⟩ (.ofRegister onNull .boolean)
      build (Build.switchTo test)
      let answered ← instanceQuery chain object target
      jump ⟨m,some dest,.boolean⟩ (.ofRegister answered .boolean)
      resumeAt ⟨m,some dest,.boolean⟩) env s result s') :
    result = .ofRegister dest .boolean ∧ s'.Named env ∧ (∃ p c, s'.Stands p c) ∧ ∀ {member}, target.Asked answer member s' →
      p.Computes answer c registers s' dest (.ofBool (if y = .null then target.isNullable else target.confirms (member y))) := by
  obtain ⟨viewM,viewN,viewT,cm,cn,ct,mn,mt,nt⟩ := forks
  obtain ⟨k,viewC,-⟩ := isOpen_iff_view?.mp isOpen
  obtain ⟨onNull,_,forked,run⟩ := runs_bind.mp run
  obtain ⟨_,_,jumped,run⟩ := runs_bind.mp run
  obtain ⟨_,_,switched,run⟩ := runs_bind.mp run
  obtain ⟨found,s₁,queried,run⟩ := runs_bind.mp run
  obtain ⟨_,_,jumped',resumed⟩ := runs_bind.mp run
  -- The block with the comparison.
  obtain ⟨nothing,_,nulled,forked⟩ := runs_build_bind.mp forked
  have named := loaded.named nulled named
  have loaded := loaded.const nulled rfl rfl
  obtain ⟨isNull,_,compared,forked⟩ := runs_build_bind.mp forked
  have named := loaded.named compared named
  have loaded := loaded.define (x := .ofBool (y = .null)) compared rfl (fun holds => by
    rw [result?,holds _ (.head _),holds _ (.tail _ (.head _))]
    cases y <;> simp [Scalar.compare]) fun _ _ _ => rfl
  obtain ⟨code,registers₁,p₁,continues₁,ran,stands,-,holds⟩ := loaded.code
  obtain ⟨_,_,closed,forked⟩ := runs_build_bind.mp forked
  obtain ⟨rfl,-⟩ := Runs.endsWith closed stands
  obtain ⟨_,_,moved,constant⟩ := runs_build_bind.mp forked
  obtain ⟨stands,named,-⟩ := moved.enters stands.procedure named (by rfl)
  have tested := (holds _ (.head _)).1
  have held := holds _ (.tail _ (.tail _ (.head _)))
  -- The way of null.
  have view : (p₁.close c (.condBranch isNull null test)).view? null = some ⟨[],[],none⟩ := by
    simp [view?_close,continues₁ _,viewN,cn.symm]
  have loaded : Loaded answer _ null registers₁ [(object, y)] _ :=
    .start stands (isOpen_iff_view?.mpr ⟨_,view,rfl⟩) (forall_mem_singleton.mpr held)
  have named := loaded.named constant named
  obtain ⟨code₂,registers₂,p₂,continues₂,ran₂,stands,isOpen,holds⟩ := (loaded.const constant rfl rfl).code
  obtain rfl := jumped.jumps stands isOpen
  obtain ⟨stands,named,-⟩ := switched.enters stands.procedure named (by rfl)
  have onNull' := (holds _ (.head _)).1
  have bound := (holds _ (.tail _ (.head _))).2.1
  -- The way of an object.
  have viewT : (p₂.jump null m dest onNull).view? test = some ⟨[],[],none⟩ := by
    simp [view?_jump,continues₂ _,view?_close,continues₁ _,viewT,ct.symm,nt.symm,mt.symm]
  have loaded : Loaded answer _ test registers₁ [(object, y)] _ :=
    .start stands (isOpen_iff_view?.mpr ⟨_,viewT,rfl⟩) (forall_mem_singleton.mpr ⟨held.1,bound,fun _ _ w b equal => absurd equal (plain w b)⟩)
  obtain ⟨named,⟨p₃,_,stands,isOpen,continues₃⟩,answered⟩ := loaded.query named queried (.head _)
  obtain rfl := jumped'.jumps stands isOpen
  -- Where they meet.
  have viewM : p₃.view? m = some ⟨[⟨dest,[(null, onNull)],.bool⟩],[],none⟩ := by
    simp [continues₃ _,view?_jump,continues₂ _,view?_close,continues₁ _,viewM,cm.symm,mn,mt,Build.withIncoming]
  obtain ⟨rfl,moved⟩ := resumed.resumes stands.procedure viewM
  obtain ⟨stands',named',keeps,same⟩ := moved.enters stands.procedure named (by rfl)
  refine ⟨rfl,named',⟨_,m,stands'⟩,fun {member} asked => ?_⟩
  obtain ⟨code₃,registers₃,_,continues₃,ran₃,again,-,holds⟩ := (answered (asked.earlier keeps same)).code
  obtain rfl := mem_unique stands.procedure again.procedure
  have viewC : (p₃.jump test m dest found).view? c = some ⟨k.phis,k.code ++ code,some (.condBranch isNull null test)⟩ := by
    simp [view?_jump,continues₃ _,continues₂ _,view?_close,continues₁ _,viewC,cm,cn,ct]
  have viewN : (p₃.jump test m dest found).view? null = some ⟨[],code₂,some (.branch m)⟩ := by
    simp [view?_jump,continues₃ _,continues₂ _,view?_close,continues₁ _,viewN,cn.symm,nt,mn.symm]
  have viewT : (p₃.jump test m dest found).view? test = some ⟨[],code₃,some (.branch m)⟩ := by
    simp [view?_jump,continues₃ _,viewT,mt.symm]
  have viewM : (p₃.jump test m dest found).view? m = some ⟨[⟨dest,[(null, onNull),(test, found)],.bool⟩],[],none⟩ := by
    simp [view?_jump,viewM,mt,Build.withIncoming]
  by_cases isNil : y = .null
  · refine ⟨k,_,m,_,code,_,‹_›,stands',viewC,rfl,.move ran viewC rfl ?_ viewN (.move ran₂ viewN rfl rfl viewM (.stay rfl viewM rfl)),?_⟩
    · simp [target?,tested,isNil]
    · simpa [BlockView.merged,isNil] using onNull'
  · refine ⟨k,_,m,_,code,_,‹_›,stands',viewC,rfl,.move ran viewC rfl ?_ viewT (.move ran₃ viewT rfl rfl viewM (.stay rfl viewM rfl)),?_⟩
    · simp [target?,tested,isNil]
    · simpa [BlockView.merged,isNil,lookup_cons,beq_eq_false_iff_ne.mpr nt.symm] using (holds _ (.head _)).1

variable {roots : Expr → Prop} {o : Outset env roots chain} {available : List Register} {ahead : List Ahead} {known : List Joint}

theorem Stance.instanceTest (answer : Answers) (stance : Stance o available ahead known True s) (inside : v.registers ⊆ available)
    (completes : v.Completes) (run : Runs (lowerInstanceTest chain v target) env s result s')
    (proper : v.ty.primitive? = none → ∀ r ∈ v.registers, ∀ w b, registers r ≠ .bits w b) :
    ∃ p c r x, s.Stands p c ∧ result = .ofRegister r .boolean ∧ v.Reads registers x ∧ s'.Named env ∧ (∃ p c, s'.Stands p c) ∧
      ∀ {member}, target.Asked answer member s' → p.Computes answer c registers s' r (.ofBool (target.tells v.ty x (member x))) := by
  obtain ⟨supply,p,c,point⟩ := stance.point
  have stands := point.standing.stands
  have isOpen := point.live.mpr trivial
  unfold lowerInstanceTest at run
  unfold Ty.tells
  cases kind : v.ty.primitive? with
  | some kind =>
    simp only [kind] at run
    obtain ⟨r,s₁,constant,run⟩ := runs_bind.mp run
    obtain ⟨rfl,rfl⟩ := runs_pure.mp run
    have loaded : Loaded answer p c registers [] s := .start stands isOpen (forall_mem_nil _)
    obtain ⟨code,registers',p',continues,ran,stands',-,holds⟩ := (loaded.const constant rfl rfl).code
    obtain ⟨k,view,ended⟩ := isOpen_iff_view?.mp isOpen
    obtain ⟨x,reads⟩ := v.exists_reads registers
    exact ⟨p,c,r,x,stands,rfl,reads,loaded.named constant point.standing.named,⟨p',c,stands'⟩,fun _ =>
      ⟨k,p',c,_,code,registers',view,stands',continues.here view,rfl,.stay ran (continues.here view) ended,(holds _ (.head _)).1⟩⟩
  | none =>
    simp only [kind] at run
    obtain ⟨object,s₁,materialized,run⟩ := runs_bind.mp run
    have loaded : Loaded answer p c registers (v.registers.map fun r => (r, registers r)) s := .start stands isOpen <|
      forall_mem_map.mpr fun r used => ⟨rfl,point.standing.reaches.taken r (inside used),fun _ _ w b equal => absurd equal (proper kind r used w b)⟩
    obtain ⟨x,loaded,reads⟩ := loaded.materialize point.standing.named materialized fun r used => mem_map_of_mem used
    obtain ⟨code,registers₁,p₁,continues,ran,stands₁,isOpen₁,holds⟩ := loaded.code
    obtain ⟨supply₁,_,_,point₁⟩ := ((stance.flow (.materialize completes inside) fun _ h => h).of_runs materialized).point
    obtain rfl := point₁.standing.unique stands₁.procedure
    obtain ⟨merge,s₂,made,run⟩ := runs_bind.mp run
    obtain ⟨null,s₃,made',run⟩ := runs_bind.mp run
    obtain ⟨test,s₄,made'',run⟩ := runs_bind.mp run
    obtain ⟨supply₂,p₂,m,dest,rfl,rfl,gains₂⟩ := made.merge stands₁ point₁.standing.sound
    obtain ⟨supply₃,p₃,rfl,gains₃⟩ := made'.blank stands₁.put gains₂.sound
    obtain ⟨supply₄,p₄,rfl,gains₄⟩ := made''.blank stands₁.put.put gains₃.sound
    obtain ⟨viewM,old₂⟩ := gains₂.view?
    obtain ⟨viewN,old₃⟩ := gains₃.view?
    obtain ⟨viewT,old₄⟩ := gains₄.view?
    obtain ⟨k,view,ended⟩ := isOpen_iff_view?.mp isOpen₁
    have kept : ∀ {k}, p₁.view? c = some k → p₄.view? c = some k := fun found => (old₄ (old₃ (old₂ found).2).2).2
    have later := (gains₂.later.grows.trans gains₃.later.grows).trans gains₄.later.grows
    have named : (((s₁.put p₂).put p₃).put p₄).Named env := by
      simp only [State.put,put_put]
      exact (point₁.standing.named.put stands₁.procedure later.name).1
    have forks : p₄.Forks c m null test dest := ⟨(old₄ (old₃ viewM).2).2,(old₄ viewN).2,viewT,(old₂ view).1,(old₃ (old₂ view).2).1,
      (old₄ (old₃ (old₂ view).2).2).1,(old₃ viewM).1,(old₄ (old₃ viewM).2).1,(old₄ viewN).1⟩
    have plain := reads.plain (proper kind)
    have isOpen₄ : p₄.IsOpen c := isOpen_iff_view?.mpr ⟨k,kept view,ended⟩
    have holds := holds _ (.head _)
    have loaded : Loaded answer p₄ c registers₁ [(object, x)] (((s₁.put p₂).put p₃).put p₄) := .start stands₁.put.put.put isOpen₄
      (forall_mem_singleton.mpr ⟨holds.1,lt_of_lt_of_le holds.2.1 later.registers,fun _ _ w b equal => absurd equal (plain w b)⟩)
    obtain ⟨rfl,named,stands',computes⟩ := loaded.fork isOpen₄ forks named plain run
    exact ⟨p,c,dest,x,stands,rfl,reads,named,stands',fun asked => (computes asked).before kept continues isOpen ran⟩

theorem Stance.negatedTest (stance : Stance o available ahead known True s) (inside : v.registers ⊆ available)
    (completes : v.Completes) (run : Runs (lowerNegatedTest chain v target) env s result s')
    (proper : v.ty.primitive? = none → ∀ r ∈ v.registers, ∀ w b, registers r ≠ .bits w b) (asked : target.Asked answer member s') :
    ∃ p c r x, s.Stands p c ∧ result = .ofRegister r .boolean ∧ v.Reads registers x ∧
      p.Computes answer c registers s' r (.ofBool !(target.tells v.ty x (member x))) := by
  obtain ⟨_,s₁,tested,run⟩ := runs_bind.mp run
  obtain ⟨p,c,r,x,stands,rfl,reads,named,⟨p₁,c₁,stands₁⟩,computes⟩ := stance.instanceTest answer inside completes tested proper
  obtain ⟨dest,_,negated,run⟩ := runs_bind.mp (show Runs (do return ofRegister (← build (Build.unary .not r)) .boolean) env s₁ result s' from run)
  obtain ⟨rfl,rfl⟩ := runs_pure.mp run
  obtain ⟨_,built,rfl⟩ := runs_build.mp negated
  obtain ⟨_,_,got,built⟩ := Build.runs_bind.mp built
  obtain ⟨rfl,rfl⟩ := Build.runs_get.mp got
  have asked : target.Asked answer member s₁ := by
    obtain ⟨-,-,-,-,rfl⟩ := built.define stands₁.procedure stands₁.cursor
    exact asked.earlier (named.put stands₁.procedure (by rfl)).2 rfl
  refine ⟨p,c,dest,x,stands,rfl,reads,(computes asked).define built rfl fun holds => ?_⟩
  rw [result?,holds]
  cases target.tells v.ty x (member x) <;> rfl

end

/-! ### Programs -/

/-- What the code of an instance test computes, or that of its opposite, if the library answers. -/
def Tests (env : Environment) : Expectation := fun r chain e s v s' =>
  ∀ {operator operand target w s₁ answer member registers}, e.node = .typeOp operator operand target →
    operator = .instanceOf ∨ operator = .notInstanceOf → s.builder.isTerminated = false →
    Runs (eval r chain operand) env (s.noting e) (some w) s₁ → target.Asked answer member s' →
    (w.ty.primitive? = none → ∀ r ∈ w.registers, ∀ n b, registers r ≠ .bits n b) →
    ∃ p c r x, s₁.Stands p c ∧ v = .ofRegister r .boolean ∧ w.Reads registers x ∧
      p.Computes answer c registers s' r (.ofBool (target.tells w.ty x (member x) ^^ operator = .notInstanceOf))

theorem met_tests (env : Environment) : Met env (Tests env) := by
  intro depth chain e o available ahead known live s v s' small stance run operator operand target w s₁ answer member registers node kind alive
    evaluated asked proper
  obtain ⟨_,ty,location⟩ := e
  obtain rfl : _ = _ := node
  have admits : Admits (fun _ => True) depth chain operand := by
    simp only [Expr.size,Expr.nodeSize] at small
    exact ⟨by omega,.root trivial⟩
  obtain ⟨completes,there⟩ := ((lowers_lowerWithin depth).eval admits (stance.noting alive _)).2.of_runs evaluated
  have stance : Stance o (w.registers ++ available) ahead known True s₁ := there.congr (iff_of_true rfl trivial)
  have run := Runs.stepNode run alive
  rcases kind with rfl | rfl
  all_goals
    obtain ⟨_,s₂,again,run⟩ := runs_bind.mp run
    obtain ⟨same,rfl⟩ := Prod.mk.inj (again.symm.trans evaluated)
    obtain rfl := Except.ok.inj same
  · obtain ⟨p,c,r,x,stands,rfl,reads,-,-,computes⟩ := stance.instanceTest answer (subset_append_left _ _) (completes w rfl) run proper
    exact ⟨p,c,r,x,stands,rfl,reads,by simpa using computes asked⟩
  · obtain ⟨p,c,r,x,stands,rfl,reads,computes⟩ := stance.negatedTest (subset_append_left _ _) (completes w rfl) run proper asked
    exact ⟨p,c,r,x,stands,rfl,reads,by simpa using computes⟩

/-- Instance tests compute whether a value belongs to the target: no program is lowered differently if that is checked wherever an instance
    test has been lowered. -/
theorem lowerProgram_tests_instances (env : Environment) (strings : StringPool) (units : List SourceUnit) :
    observedProgram (Tests env) env strings units = lowerProgram env strings units :=
  observedProgram_eq (met_tests env) strings units

def anyDecls : Declarations := .ofLists [] [.topLevel ⟨0⟩ "f" [⟨⟨0⟩,"x",.int⟩] .boolean] []

def anyUnit : SourceUnit := ⟨"m",[⟨⟨0⟩,.returnFrom ⟨0⟩ (.typeOp .instanceOf (.readVar ⟨0⟩ .int) .object .boolean)⟩],[]⟩

/-- No integer is an object, it is said. -/
theorem anyUnit_answers_no : ∃ m p k, (lowerModule .development anyDecls [anyUnit]).result = .ok m ∧ m.procedures.get? ⟨0⟩ = some p ∧
    p.graph.block? ⟨0⟩ = some k ∧ k.code = [.const ⟨1⟩ (.bool false)] ∧ k.terminator = some (.ret (some ⟨1⟩)) :=
  exists_block _ _ _ _ _ _ (by decide +kernel)

end BlockLowering
