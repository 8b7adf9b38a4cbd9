import BlockLowering.Proofs.Points
/-!
The footing of a run: some blocks are kept back for later, among them the handlers of open scopes. A block that
is kept back is open and stays so until the cursor moves there. Where the block at the cursor is open, the steps
of construction do not fail.
-/
namespace BlockLowering
open List Option Procedure Builder ScopeState BlockLowering.Action Block

/-! ### Open blocks -/

namespace Procedure
variable {p p' : Procedure} {b c x : BlockId} {t : Terminator}

theorem isOpen_congr (same : p'.graph.block? b = p.graph.block? b) : p'.IsOpen b ↔ p.IsOpen b := by
  unfold IsOpen
  rw [same]

theorem isOpen_modifyBlock {f : Block → Block} (ended : ∀ k, (f k).terminator = k.terminator) :
    (p.modifyBlock x f).IsOpen b ↔ p.IsOpen b := by
  unfold IsOpen
  rw [block?_modifyBlock]
  cases found : p.graph.block? b with
  | none => simp
  | some k => by_cases here : b = x <;> simp [here,ended]

theorem isOpen_closing {F : BlockId → Block → Block} (lookup : p.graph.Image F p'.graph)
    (same : ∀ x k, (F x k).terminator = (whenClosed c t x k).terminator) : p'.IsOpen b ↔ b ≠ c ∧ p.IsOpen b := by
  unfold IsOpen
  rw [lookup]
  cases found : p.graph.block? b with
  | none => simp
  | some k => by_cases here : b = c <;> simp [same,whenClosed,here]

theorem isOpen_close : (p.close c t).IsOpen b ↔ b ≠ c ∧ p.IsOpen b := isOpen_closing block?_close fun _ _ => rfl

end Procedure

/-! ### Steps of construction -/

namespace Build
variable {b : Builder} {p : Procedure} {c x : BlockId}

section
variable (here : b.procedure? = some p)
include here

theorem safe_alloc (entry : ∃ k, p.graph.block? p.graph.entry = some k) (type : NativeType) :
    Safe (alloc type) b fun r b' => r = ⟨p.nextRegister⟩ ∧ b' = b.put ((p.allocRegister .ptr).2.modifyBlock p.graph.entry fun k =>
      k.addAlloc (.alloc ⟨p.nextRegister⟩ type)) :=
  (acts_alloc type).safe here (if_pos (Table.contains_iff.mpr entry)) ⟨rfl,rfl⟩

theorem safe_phi (there : ∃ k, p.graph.block? x = some k) (type : NativeType) : Safe (phi x type) b fun r b' => r = ⟨p.nextRegister⟩ ∧
      b' = b.put ((p.allocRegister type).2.modifyBlock x fun k => k.addPhi ⟨⟨p.nextRegister⟩,[],type⟩) :=
  (acts_phi x type).safe here (if_pos (Table.contains_iff.mpr there)) ⟨rfl,rfl⟩

theorem safe_addIncoming {k : Block} {dest : Register} (found : p.graph.block? x = some k) (merged : dest ∈ k.phis.map Phi.dest)
    (source : BlockId) (value : Register) : Safe (addIncoming x dest source value) b fun _ b' =>
      b' = b.put (p.modifyBlock x fun k => k.addIncoming dest (source, value)) := by
  have there : (((p.graph.block? x).map phis).getD []).any (fun phi => phi.dest = dest) = true := by
    obtain ⟨phi,among,same⟩ := mem_map.mp merged
    simpa [found] using ⟨phi,among,same⟩
  exact (acts_addIncoming x dest source value).safe here (if_pos there) rfl

end

section
variable (here : b.procedure? = some p) (atCursor : b.cursor = some c) (isOpen : p.IsOpen c)
include here atCursor isOpen

theorem Acts.safe_atOpen {m : Build Unit} {change : BlockId → Procedure → Procedure} (acts : m.Acts (.atOpen change)) :
    Safe m b fun _ b' => b' = b.put (change c p) := by
  obtain ⟨k,found,ended⟩ := isOpen
  have isOpen : openAt b.cursor p = .ok c := by simp [openAt,atCursor,found,Block.isTerminated,ended]
  refine acts.safe (a := ()) here ?_ rfl
  simp only [Action.atOpen,isOpen]

theorem safe_append (i : Instr) : Safe (append i) b fun _ b' => b' = b.put (p.modifyBlock c fun k => k.append i) :=
  (acts_append i).safe_atOpen here atCursor isOpen

theorem safe_define (type : NativeType) (instr : Register → Instr) : Safe (define type instr) b fun r b' =>
    r = ⟨p.nextRegister⟩ ∧ b' = b.put (p.defining c type instr) := by
  refine safe_bind.mpr ((safe_allocRegister here type).mono fun r b₁ ⟨taken,same⟩ => ?_)
  subst taken same
  have appends := safe_append (p := (p.allocRegister type).2) (procedure?_put here) (put_cursor.trans atCursor)
    isOpen (instr ⟨p.nextRegister⟩)
  exact safe_bind.mpr (appends.mono fun _ b₂ same => ⟨rfl,by rw [same,put_put]⟩)

theorem safe_terminate (t : Terminator) : Safe (terminate t) b fun _ b' => b' = b.put (p.close c t) :=
  (acts_terminate t).safe_atOpen here atCursor isOpen

theorem safe_withResult (signature : Signature) {step : Option Register → Build Unit} {f : Option Register → Procedure → Procedure}
    (ends : ∀ {b p dest}, b.procedure? = some p → b.cursor = some c → p.IsOpen c → Safe (step dest) b fun _ b' => b' = b.put (f dest p)) :
    Safe (resultRegister signature >>= fun dest => step dest >>= fun _ => pure dest) b fun dest b' =>
      (dest = none ∧ signature.returnsVoid = true ∧ b' = b.put (f none p)) ∨ (dest = some ⟨p.nextRegister⟩ ∧
        signature.returnsVoid = false ∧ b' = b.put (f (some ⟨p.nextRegister⟩) (p.allocRegister signature.result).2)) := by
  refine safe_bind.mpr ((safe_resultRegister here signature).mono ?_)
  rintro _ _ (⟨rfl,void,rfl⟩ | ⟨rfl,valued,rfl⟩)
  · exact safe_bind.mpr ((ends here atCursor isOpen).mono fun _ _ same => .inl ⟨rfl,void,same⟩)
  · refine safe_bind.mpr ((ends (p := (p.allocRegister signature.result).2) (procedure?_put here) (put_cursor.trans atCursor) isOpen).mono ?_)
    exact fun _ _ same => .inr ⟨rfl,valued,by rw [same,put_put]⟩

theorem safe_call (site : CallSite) : Safe (call site) b fun dest b' =>
    (dest = none ∧ site.signature.returnsVoid = true ∧ b' = b.put (p.modifyBlock c fun k => k.append (.call none site))) ∨
      (dest = some ⟨p.nextRegister⟩ ∧ site.signature.returnsVoid = false ∧
        b' = b.put (p.defining c site.signature.result fun r => .call (some r) site)) :=
  safe_withResult here atCursor isOpen site.signature (f := fun dest p => p.modifyBlock c fun k => k.append (.call dest site))
    fun here atCursor isOpen => safe_append here atCursor isOpen _

theorem safe_invoke (site : CallSite) (normal unwind : BlockId) : Safe (invoke site normal unwind) b fun dest b' =>
    (dest = none ∧ site.signature.returnsVoid = true ∧ b' = b.put (p.close c (.invoke none site normal unwind))) ∨
      (dest = some ⟨p.nextRegister⟩ ∧ site.signature.returnsVoid = false ∧ b' = b.put
        ((p.allocRegister site.signature.result).2.close c (.invoke (some ⟨p.nextRegister⟩) site normal unwind))) :=
  safe_withResult here atCursor isOpen site.signature (f := fun dest p => p.close c (.invoke dest site normal unwind))
    fun here atCursor isOpen => safe_terminate here atCursor isOpen _

end

end Build

/-! ### Handlers of scopes -/

def ScopeState.handlerBlock (scope : ScopeState) : Option BlockId := scope.handler.map Continuation.block

def handlers (scopes : Array ScopeState) : List BlockId := scopes.toList.filterMap handlerBlock

section
variable {scopes : Array ScopeState} {n : Nat} {f : ScopeState → ScopeState} {scope : ScopeState}

theorem handlers_push (scopes : Array ScopeState) : handlers (scopes.push .empty) = handlers scopes := by
  simp [handlers,handlerBlock,empty]

theorem handlers_take (scopes : Array ScopeState) (n : Nat) : (handlers (scopes.take n)).Sublist (handlers scopes) := by
  simpa [handlers] using (take_sublist n scopes.toList).filterMap handlerBlock

theorem handlers_split (found : scopes[n]? = some scope) : ∃ rest, ∀ f : ScopeState → ScopeState,
    handlers (scopes.modify n f) = handlers (scopes.take n) ++ ((f scope).handlerBlock.toList ++ rest) := by
  have found : scopes.toList[n]? = some scope := by simpa using found
  obtain ⟨bound,here⟩ := List.getElem?_eq_some_iff.mp found
  refine ⟨(scopes.toList.drop (n + 1)).filterMap handlerBlock,fun f => ?_⟩
  have split := congrArg (List.filterMap handlerBlock) (modify_eq_take_cons_drop (f := f) bound)
  rw [filterMap_append,filterMap_cons,here] at split
  cases own : (f scope).handlerBlock <;> simpa [handlers,own] using split

theorem handlers_modify_same (found : scopes[n]? = some scope) (same : (f scope).handlerBlock = scope.handlerBlock) :
    handlers (scopes.modify n f) = handlers scopes := by
  obtain ⟨rest,split⟩ := handlers_split found
  have unchanged : scopes.modify n id = scopes := Array.ext_getElem? fun i => by simp [Array.getElem?_modify]
  rw [split,same]
  exact (split id).symm.trans (congrArg handlers unchanged)

end

/-! ### Footings -/

/-- Blocks other than the one at the cursor wait for it to come, among them the handlers of open scopes; they are open. -/
structure Footing (waiting : List BlockId) (s : State) (p : Procedure) (c : BlockId) : Prop where
  opened : ∀ b ∈ waiting ++ handlers s.scopes, p.IsOpen b
  distinct : (c :: (waiting ++ handlers s.scopes)).Nodup

namespace Footing
variable {waiting waiting' : List BlockId} {s s' : State} {p p' : Procedure} {b c : BlockId}

theorem moveTo (footing : Footing (b :: waiting) s p c) : Footing waiting (s.moveTo b) p b :=
  ⟨fun x inside => footing.opened x (.tail _ inside),(nodup_cons.mp footing.distinct).2⟩

theorem leave (footing : Footing (b :: waiting) s p c) (isOpen : p.IsOpen c) : Footing (c :: waiting) (s.moveTo b) p b where
  opened := forall_mem_cons.mpr ⟨isOpen,fun x inside => footing.opened x (.tail _ inside)⟩
  distinct := (Perm.swap ..).nodup_iff.mp footing.distinct

variable (footing : Footing waiting s p c)
include footing

theorem later (others : ∀ {b}, b ≠ c → p.IsOpen b → p'.IsOpen b) (scopes : s'.scopes = s.scopes) : Footing waiting s' p' c where
  opened b inside := by
    rw [scopes] at inside
    exact others (fun same => (nodup_cons.mp footing.distinct).1 (same ▸ inside)) (footing.opened b inside)
  distinct := by
    rw [scopes]
    exact footing.distinct

theorem mono (fewer : waiting'.Sublist waiting) : Footing waiting' s p c :=
  ⟨fun b inside => footing.opened b ((fewer.append_right _).subset inside),
    ((fewer.append_right _).cons_cons c).nodup footing.distinct⟩

theorem reorder (same : (waiting ++ handlers s.scopes).Perm (waiting' ++ handlers s'.scopes)) : Footing waiting' s' p c :=
  ⟨fun b inside => footing.opened b (same.mem_iff.mpr inside),((same.cons c).nodup_iff).mp footing.distinct⟩

theorem wait (isOpen : p.IsOpen b) (fresh : b ∉ c :: (waiting ++ handlers s.scopes)) : Footing (b :: waiting) s p c where
  opened := forall_mem_cons.mpr ⟨isOpen,footing.opened⟩
  distinct := (Perm.swap ..).nodup_iff.mp (nodup_cons.mpr ⟨fresh,footing.distinct⟩)

theorem fresh (here : ∃ k, p.graph.block? c = some k) (absent : p.graph.block? b = none) : b ∉ c :: (waiting ++ handlers s.scopes) := by
  intro inside
  rcases mem_cons.mp inside with rfl | inside
  · obtain ⟨k,found⟩ := here
    simp [absent] at found
  · obtain ⟨k,found,-⟩ := footing.opened b inside
    simp [absent] at found

theorem push : Footing waiting { s with scopes := s.scopes.push .empty } p c :=
  footing.reorder (by rw [handlers_push])

theorem take (n : Nat) : Footing waiting { s with scopes := s.scopes.take n } p c :=
  have fewer := (handlers_take s.scopes n).append_left waiting
  ⟨fun b inside => footing.opened b (fewer.subset inside),(fewer.cons_cons c).nodup footing.distinct⟩

theorem closeScope {n : Nat} {scope : ScopeState} (found : s.scopes[n]? = some scope) :
    Footing (scope.handlerBlock.toList ++ waiting) { s with scopes := s.scopes.take n } p c := by
  obtain ⟨rest,split⟩ := handlers_split found
  have order : (waiting ++ handlers s.scopes).Perm (scope.handlerBlock.toList ++ waiting ++ handlers (s.scopes.take n) ++ rest) := by
    rw [← handlers_modify_same (f := id) found rfl,split]
    simp only [append_assoc]
    exact ((perm_append_comm_assoc ..).append_left waiting).trans (perm_append_comm_assoc ..)
  exact ⟨fun b inside => footing.opened b (order.mem_iff.mpr (mem_append_left _ inside)),
    ((sublist_append_left _ rest).cons_cons c).nodup ((order.cons c).nodup_iff.mp footing.distinct)⟩

theorem goBack {c' : BlockId} (ended : ¬ p.IsOpen c') : Footing waiting (s.moveTo c') p c' :=
  ⟨footing.opened,nodup_cons.mpr ⟨fun among => ended (footing.opened c' among),(nodup_cons.mp footing.distinct).2⟩⟩

end Footing

theorem handlers_modify_new {scopes : Array ScopeState} {n : Nat} {scope : ScopeState} {f : ScopeState → ScopeState} {b : BlockId}
    (found : scopes[n]? = some scope) (bare : scope.handlerBlock = none) (given : (f scope).handlerBlock = some b) :
    (b :: handlers scopes).Perm (handlers (scopes.modify n f)) := by
  obtain ⟨rest,split⟩ := handlers_split found
  rw [← handlers_modify_same (f := id) found rfl,split,split,given]
  simpa [bare] using perm_middle.symm

end BlockLowering
