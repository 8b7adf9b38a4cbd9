import BlockLowering.Expr.Shorthand
import BlockLowering.Proofs.Rounds
import BlockLowering.Proofs.Validity
/-!
What holds of every function of a module that lowering returns, whatever the program and the settings:
it is in strict single assignment form, its phis have one edge for every predecessor, and a block that
control reaches lacks a terminator only where a branch was left open.
-/
namespace BlockLowering
open Option Builder

section
variable {settings : Settings} {decls : Declarations} {units : List SourceUnit} {m : Module} {id : ProcId} {p : Procedure}

theorem exists_module (settings : Settings) (decls : Declarations) (units : List SourceUnit) (test : Module → Bool)
    (passes : (lowerModule settings decls units).result.toOption.any test = true) :
    ∃ m, (lowerModule settings decls units).result = .ok m ∧ test m = true := by
  obtain ⟨m,lowered,passed⟩ := (any_eq_true _ _).mp passes
  cases result : (lowerModule settings decls units).result with
  | error e =>
    rw [result] at lowered
    cases lowered
  | ok m' =>
    rw [result] at lowered
    obtain rfl := some.inj lowered
    exact ⟨m',rfl,passed⟩

theorem exists_output (settings : Settings) (decls : Declarations) (units : List SourceUnit) (id : ProcId) (test : Procedure → Bool)
    (passes : ((lowerModule settings decls units).result.toOption.bind fun m => m.procedures.get? id).any test = true) :
    ∃ m p, (lowerModule settings decls units).result = .ok m ∧ m.procedures.get? id = some p ∧ test p = true := by
  obtain ⟨m,lowered,passed⟩ := exists_module settings decls units (fun m => (m.procedures.get? id).any test)
    (by rwa [any_bind] at passes)
  obtain ⟨p,found,passed⟩ := (any_eq_true _ _).mp passed
  exact ⟨m,p,lowered,found,passed⟩

theorem exists_block (settings : Settings) (decls : Declarations) (units : List SourceUnit) (id : ProcId) (b : BlockId) (holds : Block → Prop)
    [DecidablePred holds] (passes : ((lowerModule settings decls units).result.toOption.bind fun m => m.procedures.get? id).any (fun p =>
      (p.graph.block? b).any fun k => holds k) = true) :
    ∃ m p k, (lowerModule settings decls units).result = .ok m ∧ m.procedures.get? id = some p ∧ p.graph.block? b = some k ∧ holds k := by
  obtain ⟨m,p,lowered,found,passed⟩ := exists_output settings decls units id _ passes
  obtain ⟨k,there,passed⟩ := (any_eq_true _ _).mp passed
  exact ⟨m,p,k,lowered,found,there,of_decide_eq_true passed⟩

theorem lowerModule_sound (lowered : (lowerModule settings decls units).result = .ok m)
    (found : m.procedures.get? id = some p) : ∃ supply, p.Sound supply :=
  (lowerProgram_spec lowered found).1

/-- Every register is defined once in the parameters and the reached blocks. A use in a reached block is
    of a register whose definition lies before it on every path, and the check finds no fault of either
    kind. -/
theorem lowerModule_strict_ssa (lowered : (lowerModule settings decls units).result = .ok m)
    (found : m.procedures.get? id = some p) : (p.definitions.map Definition.register).Nodup ∧
    (∀ b k, p.graph.Reached b → p.graph.block? b = some k → (∀ index i, k.instrs[index]? = some i → ∀ r ∈ i.uses,
        ∃ site, ⟨r,site⟩ ∈ p.definitions ∧ site.CoversAt p.graph b index) ∧ (∀ t, k.terminator = some t → ∀ r ∈ t.uses,
        ∃ site, ⟨r,site⟩ ∈ p.definitions ∧ site.CoversAt p.graph b k.instrs.length) ∧
      ∀ phi ∈ k.phis, ∀ a r, (a, r) ∈ phi.incoming → p.graph.Reached a →
        ∃ site, ⟨r,site⟩ ∈ p.definitions ∧ site.CoversEdge p.graph a b) ∧ ∀ d ∈ p.validate, ∀ r,
      d.fault ≠ .undefinedRegister r ∧ d.fault ≠ .useNotDominated r ∧ d.fault ≠ .multipleDefinitions r := by
  obtain ⟨supply,sound⟩ := lowerModule_sound lowered found
  refine ⟨sound.numbered.nodup_definitions,fun b k reached there => ⟨?_,?_,?_⟩,fun d inside r => ?_⟩
  · exact fun index i at_index r used => sound.operand_covered reached there at_index used
  · exact fun t ended r used => sound.ending_covered reached there ended used
  · exact fun phi merged a r edge source => sound.incoming_covered source there merged edge
  · rcases sound.validate inside with ⟨b,k,-,-,-,rfl⟩ | ⟨reason,fault⟩
    · simp
    · simp [fault]

/-- A function that merges the result of a guarded call with its argument. -/
def guardedUnit : SourceUnit :=
  let g := Expr.call ⟨1⟩ [.readVar ⟨1⟩ .int] .int
  ⟨"m",[⟨⟨0⟩,.returnFrom ⟨0⟩ (.ifElse (.readVar ⟨0⟩ .boolean) (.guarded g [] (some g) .int)
    (.readVar ⟨1⟩ .int) .int)⟩],[]⟩

def guardedDecls : Declarations := .ofLists []
  [.topLevel ⟨0⟩ "f" [⟨⟨0⟩,"c",.boolean⟩,⟨⟨1⟩,"x",.int⟩] .int,
    { FunctionDecl.topLevel ⟨1⟩ "g" [⟨⟨2⟩,"y",.int⟩] .int with isExternal := true }] []

theorem guardedUnit_strict_ssa : ∃ m p, (lowerModule .development guardedDecls [guardedUnit]).result = .ok m ∧
    m.procedures.get? ⟨0⟩ = some p ∧ (p.definitions.map Definition.register).Nodup ∧ ∀ d ∈ p.validate, ∀ r,
      d.fault ≠ .undefinedRegister r ∧ d.fault ≠ .useNotDominated r ∧ d.fault ≠ .multipleDefinitions r := by
  obtain ⟨m,p,lowered,found,-⟩ := exists_output .development guardedDecls [guardedUnit] ⟨0⟩ (fun _ => true)
    (by decide +kernel)
  obtain ⟨single,-,valid⟩ := lowerModule_strict_ssa lowered found
  exact ⟨m,p,lowered,found,single,valid⟩

/-- Predecessors are listed once and are the blocks whose terminators name the block. Targets exist and
    are never the entry, and a phi has one edge for every predecessor; the check finds no fault of
    either kind. -/
theorem lowerModule_phis_complete (lowered : (lowerModule settings decls units).result = .ok m)
    (found : m.procedures.get? id = some p) : (∀ b k, p.graph.block? b = some k → k.predecessors.Nodup ∧
      (∀ a, a ∈ k.predecessors ↔ ∃ k', p.graph.block? a = some k' ∧ b ∈ k'.successors) ∧
      (∀ t ∈ k.successors, t ≠ p.graph.entry ∧ ∃ k', p.graph.block? t = some k') ∧
      ∀ phi ∈ k.phis, (phi.incoming.map Prod.fst).Nodup ∧ ∀ a, a ∈ phi.incoming.map Prod.fst ↔ a ∈ k.predecessors) ∧
    ∀ d ∈ p.validate, (∀ target reason, d.fault ≠ .invalidControlFlow target reason) ∧ ∀ phi reason, d.fault ≠ .invalidPhi phi reason := by
  obtain ⟨supply,sound⟩ := lowerModule_sound lowered found
  refine ⟨fun b k there => ⟨sound.wired.distinct there,fun a => ?_,fun t target => ?_,fun phi merged => ?_⟩,
    fun d inside => ?_⟩
  · refine ⟨sound.wired.sources there,fun ⟨k',source,target⟩ => ?_⟩
    obtain ⟨-,k'',there',recorded⟩ := sound.wired.targets source target
    obtain rfl := Option.some.inj (there.symm.trans there')
    exact recorded
  · obtain ⟨inner,k',exist,-⟩ := sound.wired.targets there target
    exact ⟨inner,k',exist⟩
  · rw [sound.wired.merges there merged]
    exact ⟨sound.wired.distinct there,fun _ => Iff.rfl⟩
  · rcases sound.validate inside with ⟨b,k,-,-,-,rfl⟩ | ⟨reason,fault⟩
    · simp
    · simp [fault]

theorem guardedUnit_phis_complete : ∃ m p, (lowerModule .development guardedDecls [guardedUnit]).result = .ok m ∧
    m.procedures.get? ⟨0⟩ = some p ∧ (∀ b k, p.graph.block? b = some k → k.predecessors.Nodup ∧
      ∀ phi ∈ k.phis, ∀ a, a ∈ phi.incoming.map Prod.fst ↔ a ∈ k.predecessors) ∧
    ∀ d ∈ p.validate, (∀ target reason, d.fault ≠ .invalidControlFlow target reason) ∧ ∀ phi reason, d.fault ≠ .invalidPhi phi reason := by
  obtain ⟨m,p,lowered,found,-⟩ := exists_output .development guardedDecls [guardedUnit] ⟨0⟩ (fun _ => true)
    (by decide +kernel)
  obtain ⟨complete,valid⟩ := lowerModule_phis_complete lowered found
  refine ⟨m,p,lowered,found,fun b k there => ?_,valid⟩
  obtain ⟨distinct,-,-,phis⟩ := complete b k there
  exact ⟨distinct,fun phi merged => (phis phi merged).2⟩

end

end BlockLowering
