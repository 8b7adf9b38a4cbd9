import BlockLowering.Proofs.Labels
import BlockLowering.Proofs.References
/-!
Actions on the function at the cursor. A step that builds code is determined by the function, the block at
the cursor and whether labels are kept, and changes nothing but the function. The code that it adds refers
only to what is known, and labels have no influence.
-/
namespace BlockLowering
open List Build Option Table BlockLowering.Graph

/-- What lowering comes to know on its way. -/
inductive Finding where
  /-- The module has something to refer to. -/
  | has (reference : Reference)
  /-- A function may be called with a signature. -/
  | callee (id : ProcId) (signature : Signature)
  /-- Edges may be drawn to a block. -/
  | target (block : BlockId)
  /-- An invoke may lead to a block. -/
  | reserved (block : BlockId)
  /-- The function may return. -/
  | returning
  /-- Edges may be drawn to any block, also by invokes. -/
  | unguarded
  /-- A scope has been opened that variables may be bound in. -/
  | opened (scope : Nat)
  /-- A scope around may come to remember blocks. -/
  | guarding (scope : Nat)
  deriving DecidableEq

def Literal.relies (literal : Literal) : List Finding := literal.references.map .has

/-- What a call to a callee with a signature has to know. -/
def Callee.relies (signature : Signature) : Callee → List Finding
  | .direct id => [.callee id signature]
  | .indirect _ => []

def CallTarget.relies (target : CallTarget) : List Finding := target.callee.relies target.signature

def CallSite.relies (site : CallSite) : List Finding := site.callee.relies site.signature

def Instr.relies : Instr → List Finding
  | .const _ value => value.relies
  | .call _ site => site.relies
  | .alloc .. | .load .. | .store .. | .element .. | .binary .. | .unary .. | .compare .. | .cast .. | .landingPad _ => []

def Terminator.relies : Terminator → List Finding
  | .branch target => [.target target]
  | .condBranch _ onTrue onFalse => [.target onTrue,.target onFalse]
  | .invoke _ site normal unwind => .reserved normal :: .reserved unwind :: site.relies
  | .ret _ => [.returning]
  | .unreachable => []

theorem Terminator.targets_relies {t : Terminator} (plain : t.isInvoke = false) : t.successors.map .target ⊆ t.relies := by
  cases t <;> simp [successors,relies]
  cases plain

def Block.relies (k : Block) : List Finding := k.instrs.flatMap Instr.relies ++ k.terminator.toList.flatMap Terminator.relies

theorem Block.relies_append (k : Block) (i : Instr) : (k.append i).relies ⊆ k.relies ++ i.relies := by
  intro f inside
  simp only [relies,append,flatMap_append,flatMap_singleton,mem_append] at inside ⊢
  rcases inside with (old | new) | last
  · exact .inl (.inl old)
  · exact .inr new
  · exact .inl (.inr last)

theorem Block.relies_addAlloc (k : Block) (dest : Register) (type : NativeType) : (k.addAlloc (.alloc dest type)).relies = k.relies := by
  have parts : k.instrs.flatMap Instr.relies =
      (k.instrs.takeWhile Instr.isAlloc).flatMap Instr.relies ++ (k.instrs.dropWhile Instr.isAlloc).flatMap Instr.relies := by
    rw [← flatMap_append,takeWhile_append_dropWhile]
  simp only [relies,addAlloc,flatMap_append,flatMap_cons,parts]
  rfl

theorem Block.relies_whenClosed (b : BlockId) (t : Terminator) (x : BlockId) (k : Block) :
    (Block.whenClosed b t x k).relies ⊆ k.relies ++ t.relies := by
  intro f inside
  simp only [relies,whenClosed,mem_append] at inside ⊢
  by_cases here : x = b
  · rw [if_pos here] at inside
    rcases inside with old | new
    · exact .inl (.inl old)
    · exact .inr (by simpa using new)
  · rw [if_neg here] at inside
    exact .inl inside

namespace Procedure
variable {p p' p'' : Procedure} {needs needs' : List Finding} {b : BlockId}

def Relies (p : Procedure) (f : Finding) : Prop := ∃ b k, p.graph.block? b = some k ∧ f ∈ k.relies

def Closed (p : Procedure) (b : BlockId) : Prop := ∃ k, p.graph.block? b = some k ∧ k.isTerminated = true

/-- The numbers of new blocks are ahead of those in use. -/
def Spaced (p : Procedure) : Prop := ∀ {b k}, p.graph.block? b = some k → b.index < p.graph.nextBlock

/-- What becomes of a function under construction: its code may come to rely on more. -/
structure Develops (needs : List Finding) (p p' : Procedure) : Prop where
  id : p'.id = p.id
  name : p'.name = p.name
  header : p'.header = p.header
  relies : ∀ {f}, p'.Relies f → p.Relies f ∨ f ∈ needs

namespace Develops

theorem refl (p : Procedure) : p.Develops needs p := ⟨rfl,rfl,rfl,.inl⟩

theorem trans (first : p.Develops needs p') (second : p'.Develops needs p'') : p.Develops needs p'' where
  id := second.id.trans first.id
  name := second.name.trans first.name
  header := second.header.trans first.header
  relies h := (second.relies h).elim first.relies .inr

theorem image (F : BlockId → Block → Block) (id : p'.id = p.id) (name : p'.name = p.name) (header : p'.header = p.header)
    (blocks : ∀ x, p'.graph.block? x = (p.graph.block? x).map (F x)) (relies : ∀ x k, (F x k).relies ⊆ k.relies ++ needs) :
    p.Develops needs p' where
  id := id
  name := name
  header := header
  relies := by
    rintro f ⟨b,k',found,inside⟩
    rw [blocks] at found
    obtain ⟨k,there,rfl⟩ := map_eq_some_iff.mp found
    exact (mem_append.mp (relies b k inside)).imp_left fun old => ⟨b,k,there,old⟩

theorem allocRegister (type : NativeType) : p.Develops needs (p.allocRegister type).2 :=
  image (fun _ k => k) rfl rfl rfl (fun _ => map_id'.symm) fun _ _ => subset_append_left _ _

theorem modifyBlock {f : Block → Block} (relies : ∀ k : Block, (f k).relies ⊆ k.relies ++ needs) : p.Develops needs (p.modifyBlock b f) := by
  refine image (fun x k => if x = b then f k else k) rfl rfl rfl (fun x => ?_) fun x k => ?_
  · rw [block?_modifyBlock]
  · by_cases here : x = b
    · simpa [here] using relies k
    · simp [here]

theorem close {t : Terminator} (known : t.relies ⊆ needs) : p.Develops needs (p.close b t) := by
  refine image (Block.whenClosed b t) rfl rfl rfl (fun x => block?_close x) fun x k f inside => ?_
  rcases mem_append.mp (Block.relies_whenClosed b t x k inside) with old | new
  · exact mem_append_left _ old
  · exact mem_append_right _ (known new)

theorem createBlock : p.Develops needs p.createBlock where
  id := rfl
  name := rfl
  header := rfl
  relies := by
    rintro f ⟨b,k,found,inside⟩
    rw [block?_createBlock] at found
    split at found
    · cases found
      exact absurd inside not_mem_nil
    · exact .inl ⟨b,k,found,inside⟩

end Develops

end Procedure

/-! ### Actions -/

/-- An action adds code that relies on what is known only, is blind to labels, and finds nothing but blocks. -/
structure Action.Proper {α : Type} (action : Action α) (needs : List Finding) (gives : α → List Finding) : Prop where
  develops : ∀ c e (p : Procedure), p.Develops needs (action.inside c e p).2
  blind : ∀ c e p, (action.inside c e p).1 = (action.inside c false p.unlabelled).1 ∧
    (action.inside c e p).2.unlabelled = (action.inside c false p.unlabelled).2.unlabelled
  finds : ∀ {a f}, f ∈ gives a → ∃ b, f = .target b ∨ f = .reserved b

theorem Builder.exists_current {b : Builder} {p : Procedure} (here : b.procedure? = some p) :
    ∃ id, b.current = some id ∧ b.output.procedures.get? id = some p ∧
      ∀ p', (b.put p').output = b.output.modifyProcedure id fun _ => p' := by
  obtain ⟨id,current,found⟩ := bind_eq_some_iff.mp here
  refine ⟨id,current,found,fun p' => ?_⟩
  unfold put modifyProcedure
  rw [current]

namespace Action
variable {needs : List Finding} {p : Procedure}

theorem unlabelled_unlabelled (p : Procedure) : p.unlabelled.unlabelled = p.unlabelled := by
  show { p with graph := { p.graph with blocks := (p.graph.blocks.mapValues Block.unlabelled).mapValues Block.unlabelled } } = _
  rw [mapValues_mapValues]
  rfl

theorem blind_of_commutes (change : Procedure → Procedure) (p : Procedure)
    (commutes : ∀ q : Procedure, (change q).unlabelled = change q.unlabelled) :
    (change p).unlabelled = (change p.unlabelled).unlabelled := by
  rw [commutes,commutes,unlabelled_unlabelled]

theorem proper_allocRegister (type : NativeType) : (allocRegister type).Proper needs fun _ => [] where
  develops _ _ _ := .allocRegister type
  blind _ _ p := ⟨rfl,blind_of_commutes (fun q => (q.allocRegister type).2) p fun _ => rfl⟩
  finds h := absurd h not_mem_nil

theorem openAt_unlabelled (c : Option BlockId) (p : Procedure) : openAt c p.unlabelled = openAt c p := by
  unfold openAt
  cases c with
  | none => rfl
  | some id =>
    simp only [Procedure.block?_unlabelled]
    cases p.graph.block? id <;> rfl

theorem proper_atOpen {change : BlockId → Procedure → Procedure} (develops : ∀ id (p : Procedure), p.Develops needs (change id p))
    (commutes : ∀ id (p : Procedure), (change id p).unlabelled = change id p.unlabelled) : (atOpen change).Proper needs fun _ => [] where
  develops c e p := by
    unfold atOpen
    dsimp only
    split
    · exact develops _ p
    · exact .refl p
  blind c e p := by
    unfold atOpen
    dsimp only
    rw [openAt_unlabelled]
    split
    · exact ⟨rfl,blind_of_commutes _ p (commutes _)⟩
    · exact ⟨rfl,(unlabelled_unlabelled p).symm⟩
  finds h := absurd h not_mem_nil

theorem proper_append {i : Instr} (known : i.relies ⊆ needs) : (append i).Proper needs fun _ => [] := by
  refine proper_atOpen (fun id p => .modifyBlock fun k f inside => ?_) fun id p => Procedure.unlabelled_modifyBlock fun _ => rfl
  exact mem_append.mpr ((mem_append.mp (k.relies_append i inside)).imp_right fun new => known new)

theorem proper_terminate {t : Terminator} (known : t.relies ⊆ needs) : (terminate t).Proper needs fun _ => [] :=
  proper_atOpen (fun _ _ => .close known) fun _ _ => Procedure.unlabelled_close

theorem proper_defineAt {type : NativeType} {block : Procedure → BlockId} {missing : Breach} {change : Register → Block → Block}
    (relies : ∀ dest k, (change dest k).relies = k.relies)
    (commutes : ∀ dest k, (change dest k).unlabelled = change dest k.unlabelled)
    (blind : ∀ p : Procedure, block p.unlabelled = block p) : (defineAt type block missing change).Proper needs fun _ => [] where
  develops c e p := by
    unfold defineAt
    dsimp only
    split
    · refine (Procedure.Develops.allocRegister type).trans (.modifyBlock fun k => ?_)
      rw [relies]
      exact subset_append_left _ _
    · exact .allocRegister type
  blind c e p := by
    unfold defineAt
    dsimp only
    rw [← Procedure.unlabelled_allocRegister,blind,
      show (p.allocRegister type).2.unlabelled.graph.hasBlock _ = (p.allocRegister type).2.graph.hasBlock _ from hasBlock_unlabelled]
    split
    · exact ⟨rfl,blind_of_commutes (fun q => q.modifyBlock _ _) _ fun q =>
        Procedure.unlabelled_modifyBlock (commutes _)⟩
    · exact ⟨rfl,(unlabelled_unlabelled _).symm⟩
  finds h := absurd h not_mem_nil

theorem proper_alloc (type : NativeType) : (alloc type).Proper needs fun _ => [] :=
  proper_defineAt (fun dest k => k.relies_addAlloc dest type) (fun _ _ => rfl) fun _ => rfl

theorem proper_phi (block : BlockId) (type : NativeType) : (phi block type).Proper needs fun _ => [] :=
  proper_defineAt (fun _ _ => rfl) (fun _ _ => rfl) fun _ => rfl

theorem proper_labelledBlock (label : String) : (labelledBlock label).Proper needs fun block => [.target block,.reserved block] where
  develops c e p := by
    unfold labelledBlock
    dsimp only
    split
    · exact Procedure.Develops.createBlock.trans (.modifyBlock fun k => subset_append_left _ _)
    · exact .createBlock
  blind c e p := by
    unfold labelledBlock
    refine ⟨rfl,?_⟩
    dsimp only
    rw [if_neg Bool.false_ne_true,← Procedure.unlabelled_createBlock,unlabelled_unlabelled]
    split
    · exact Procedure.unlabelled_relabel
    · rfl
  finds := by simp

theorem proper_addIncoming (block : BlockId) (dest : Register) (source : BlockId) (value : Register) :
    (addIncoming block dest source value).Proper needs fun _ => [] where
  develops c e p := by
    unfold addIncoming
    dsimp only
    split
    · exact .modifyBlock fun k => subset_append_left _ _
    · exact .refl p
  blind c e p := by
    have phis : ((p.unlabelled.graph.block? block).map Block.phis).getD [] = ((p.graph.block? block).map Block.phis).getD [] := by
      rw [Procedure.block?_unlabelled,Option.map_map]
      rfl
    unfold addIncoming
    dsimp only
    rw [phis]
    split
    · exact ⟨rfl,blind_of_commutes (fun q => q.modifyBlock _ _) _ fun q =>
        Procedure.unlabelled_modifyBlock fun _ => rfl⟩
    · exact ⟨rfl,(unlabelled_unlabelled _).symm⟩
  finds h := absurd h not_mem_nil

end Action

end BlockLowering
