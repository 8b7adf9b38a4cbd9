import BlockLowering.Proofs.Paths
/-!
The check against the paths. For a register with one definition, by a parameter, a phi or an
instruction, the check reports exactly the reads that some path reaches without that definition, and a
phi exactly when its edges are not those of its block, each once. The result of an invoke is looked for
in the block behind the normal edge, whatever edge leads there.
-/
namespace BlockLowering
open List Table Diagnostic Prod DominatorTree Procedure
variable {earlier : List Register} {available : Site → Bool} {index : Nat}

/-- Where a block reads a register: for a phi at the end of another block, or at a place of its own. -/
inductive Place where
  | edge (source : BlockId)
  | inside (index : Nat)
  deriving DecidableEq, Repr

/-- The reads of the phis, the instructions and the terminator of a block, in this order. -/
def Block.reads (k : Block) : List (Register × Place) :=
  k.phis.flatMap (fun phi => phi.incoming.map fun edge => (edge.2, .edge edge.1)) ++
    k.instrs.zipIdx.flatMap (fun entry => entry.1.uses.map fun r => (r, .inside entry.2)) ++
    k.terminator.toList.flatMap fun t => t.uses.map fun r => (r, .inside k.instrs.length)

/-- Some path leads to a read without a move. -/
def Graph.MissesRead (g : Graph) (move : Move) (b : BlockId) : Place → Prop
  | .edge source => ∃ k, g.block? source = some k ∧ g.Misses move source k.instrs.length
  | .inside index => g.Misses move b index

noncomputable instance (g : Graph) (move : Move) (b : BlockId) (place : Place) : Decidable (g.MissesRead move b place) :=
  Classical.propDecidable _

/-- A report about reads of a register in a block. -/
def Diagnostic.isRead (b : BlockId) (r : Register) (d : Diagnostic) : Bool :=
  d.block = some b && (d.fault = .undefinedRegister r || d.fault = .useNotDominated r)

/-- A report about the edges of a phi in a block. -/
def Diagnostic.isPhi (b : BlockId) (d : Diagnostic) : Bool :=
  d.block = some b && match d.fault with
    | .invalidPhi _ _ => true
    | _ => false

/-- The edges of a phi from reached blocks are those from the predecessors of its block, each once. -/
def Phi.Fits (g : Graph) (b : BlockId) (phi : Phi) : Prop :=
  ((phi.incoming.map fst).filter fun a => g.Reached a ∧ g.hasBlock a = true).Nodup ∧
    ∀ a, a ∈ ((phi.incoming.map fst).filter fun a => g.Reached a ∧ g.hasBlock a = true) ↔
      g.Reached a ∧ b ∈ g.successors a

namespace Validator
variable {v : Validator} {p : Procedure} {b : BlockId} {k : Block} {r : Register} {site : Site} {move : Move}
variable {d : Diagnostic} {phi : Register} {preds seen : List BlockId} {incoming : List (BlockId × Register)}

/-! ### Which part of the check reports what -/

theorem mem_repeated {block : Option BlockId} {ds : List Definition}
    (inside : d ∈ v.repeated block earlier ds) : ∃ r, d.fault = .multipleDefinitions r := by
  induction ds generalizing earlier with
  | nil => cases inside
  | cons first rest ih =>
    rcases mem_append.mp inside with here | later
    · split at here
      · rw [mem_singleton.mp here]
        exact ⟨_,rfl⟩
      · cases here
    · exact ih later

theorem mem_edgeFaults {target : BlockId} (inside : d ∈ v.edgeFaults b target) : ∃ reason, d.fault = .invalidControlFlow target reason := by
  unfold edgeFaults at inside
  split at inside
  · rw [mem_singleton.mp inside]
    exact ⟨_,rfl⟩
  · split at inside
    · rw [mem_singleton.mp inside]
      exact ⟨_,rfl⟩
    · cases inside

theorem fault_of_shape {entries : List (BlockId × Block)} (inside : d ∈ v.shapeFaults earlier entries) :
    (∃ r, d.fault = .multipleDefinitions r) ∨ d.fault = .missingTerminator ∨
      ∃ target reason, d.fault = .invalidControlFlow target reason := by
  induction entries generalizing earlier with
  | nil => cases inside
  | cons e rest ih =>
    obtain ⟨b,k⟩ := e
    simp only [shapeFaults,mem_append] at inside
    rcases inside with ((repeats | missing) | edges) | later
    · exact .inl (mem_repeated repeats)
    · split at missing
      · cases missing
      · rw [mem_singleton.mp missing]
        exact .inr (.inl rfl)
    · obtain ⟨target,-,there⟩ := mem_flatMap.mp edges
      obtain ⟨reason,fault⟩ := mem_edgeFaults there
      exact .inr (.inr ⟨target,reason,fault⟩)
    · exact ih later

theorem mem_useFaults (inside : d ∈ v.useFaults b available r) :
    d = v.report (some b) (.undefinedRegister r) ∨ d = v.report (some b) (.useNotDominated r) := by
  unfold useFaults at inside
  split at inside
  · exact .inl (mem_singleton.mp inside)
  · split at inside
    · cases inside
    · exact .inr (mem_singleton.mp inside)

theorem block_of_use (inside : d ∈ v.useFaults b available r) : d.block = some b := by
  rcases mem_useFaults inside with rfl | rfl <;> rfl

theorem mem_incomingFaults (inside : d ∈ v.incomingFaults b phi preds seen incoming) :
    (∃ reason, d = v.report (some b) (.invalidPhi phi reason)) ∨ ∃ available r, d ∈ v.useFaults b available r := by
  induction incoming generalizing seen with
  | nil =>
    obtain ⟨pred,-,rfl⟩ := mem_map.mp inside
    exact .inl ⟨_,rfl⟩
  | cons edge rest ih =>
    obtain ⟨source,value⟩ := edge
    unfold incomingFaults at inside
    split at inside
    · exact ih inside
    · simp only [mem_append] at inside
      rcases inside with ((foreign | twice) | use) | later
      · split at foreign
        · cases foreign
        · exact .inl ⟨_,mem_singleton.mp foreign⟩
      · split at twice
        · exact .inl ⟨_,mem_singleton.mp twice⟩
        · cases twice
      · exact .inr ⟨_,_,use⟩
      · exact ih later

/-- Every report is about a misfit of a signature in a block. -/
def Misfits (b : BlockId) (faults : List Diagnostic) : Prop :=
  ∀ d ∈ faults, d.block = some b ∧ ∃ reason, d.fault = .signatureMismatch reason

theorem misfits_callFaults (v : Validator) (b : BlockId) (site : CallSite) : Misfits b (v.callFaults b site) := by
  intro d inside
  refine ⟨?_,ofSignature_callFaults v b site d inside⟩
  unfold callFaults at inside
  split at inside
  · cases inside
  · rw [mem_singleton.mp inside]
    rfl

theorem instrFaults_eq (v : Validator) (b : BlockId) (index : Nat) (i : Instr) : ∃ misfits, Misfits b misfits ∧
    v.instrFaults b index i = i.uses.flatMap (v.useFaults b (v.availableAt b index)) ++ misfits := by
  refine ⟨_,?_,rfl⟩
  split
  · exact misfits_callFaults v b _
  · exact fun _ inside => nomatch inside

theorem terminatorFaults_eq (v : Validator) (b : BlockId) (index : Nat) (t : Terminator) : ∃ misfits, Misfits b misfits ∧
    v.terminatorFaults b index t = t.uses.flatMap (v.useFaults b (v.availableAt b index)) ++ misfits := by
  refine ⟨_,?_,rfl⟩
  split
  · exact misfits_callFaults v b _
  · dsimp only
    split
    · exact fun _ inside => nomatch inside
    · intro d inside
      rw [mem_singleton.mp inside]
      exact ⟨rfl,_,rfl⟩
  · exact fun _ inside => nomatch inside

theorem block_of_blockFaults (inside : d ∈ v.blockFaults b k) : d.block = some b := by
  have code : ∀ {uses : List Register} {available : Site → Bool} {misfits : List Diagnostic}, Misfits b misfits →
      d ∈ uses.flatMap (v.useFaults b available) ++ misfits → d.block = some b := by
    intro uses available misfits signatures member
    rcases mem_append.mp member with use | misfit
    · obtain ⟨r,-,there⟩ := mem_flatMap.mp use
      exact block_of_use there
    · exact (signatures d misfit).1
  simp only [blockFaults,mem_append] at inside
  rcases inside with (phis | instrs) | last
  · obtain ⟨phi,-,there⟩ := mem_flatMap.mp phis
    rcases mem_incomingFaults there with ⟨reason,rfl⟩ | ⟨_,_,use⟩
    · rfl
    · exact block_of_use use
  · obtain ⟨entry,-,there⟩ := mem_flatMap.mp instrs
    obtain ⟨misfits,signatures,same⟩ := v.instrFaults_eq b entry.2 entry.1
    exact code signatures (same ▸ there)
  · obtain ⟨t,-,there⟩ := mem_flatMap.mp last
    obtain ⟨misfits,signatures,same⟩ := v.terminatorFaults_eq b k.instrs.length t
    exact code signatures (same ▸ there)

theorem filter_faults {test : Diagnostic → Bool} (reached : p.graph.Reached b) (found : p.graph.block? b = some k)
    (here : ∀ d, test d = true → d.block = some b)
    (code : ∀ d, test d = true → (∀ r, d.fault ≠ .multipleDefinitions r) ∧ d.fault ≠ .missingTerminator ∧
      ∀ target reason, d.fault ≠ .invalidControlFlow target reason) : p.validate.filter test = ((new p).blockFaults b k).filter test := by
  have blocks := blocks_new p
  have only : ∀ entries : List (BlockId × Block), (entries.map fst).Nodup → (b, k) ∈ entries →
      (entries.flatMap fun e => ((new p).blockFaults e.1 e.2).filter test) = ((new p).blockFaults b k).filter test := by
    intro entries
    have others : ∀ entries : List (BlockId × Block), b ∉ entries.map fst →
        (entries.flatMap fun e => ((new p).blockFaults e.1 e.2).filter test) = [] := by
      intro entries absent
      refine flatMap_eq_nil_iff.mpr fun e member => filter_eq_nil_iff.mpr fun d inside passes => absent ?_
      have same := (block_of_blockFaults inside).symm.trans (here d passes)
      exact mem_map.mpr ⟨e,member,Option.some.inj same⟩
    induction entries with
    | nil => exact fun _ member => nomatch member
    | cons e rest ih =>
      intro distinct member
      obtain ⟨other,distinct⟩ := nodup_cons.mp distinct
      rw [flatMap_cons]
      rcases mem_cons.mp member with rfl | member
      · rw [others rest other,append_nil]
      · have apart : b ∉ [e].map fst := fun same => other (by
          rw [map_singleton,mem_singleton] at same
          exact same ▸ mem_map_of_mem member)
        have first := others [e] apart
        rw [flatMap_singleton] at first
        rw [first,nil_append,ih distinct member]
  have first : ((new p).repeated none [] (p.header.parameters.map fun param => Definition.mk param.register .parameter)).filter
      test = [] := by
    refine filter_eq_nil_iff.mpr fun d inside passes => ?_
    obtain ⟨r,fault⟩ := mem_repeated inside
    exact (code d passes).1 r fault
  have shape : ∀ earlier, ((new p).shapeFaults earlier (new p).blocks).filter test = [] := by
    refine fun earlier => filter_eq_nil_iff.mpr fun d inside passes => ?_
    obtain ⟨single,ended,edges⟩ := code d passes
    rcases fault_of_shape inside with ⟨r,fault⟩ | fault | ⟨target,reason,fault⟩
    · exact single r fault
    · exact ended fault
    · exact edges target reason fault
  show ((new p).repeated none [] (p.header.parameters.map fun param => Definition.mk param.register .parameter) ++
    (new p).shapeFaults _ (new p).blocks ++ (new p).blocks.flatMap fun e => (new p).blockFaults e.1 e.2).filter test = _
  rw [filter_append,filter_append,first,shape,nil_append,nil_append,filter_flatMap,blocks]
  refine only _ ?_ (mem_reachedBlocks.mpr ⟨reached,found⟩)
  exact p.graph.blocks.nodup.sublist (filter_sublist.map fst)

/-! ### Reads -/

section
variable (single : (p.definitions.filter fun d => d.register = r) = [⟨r,site⟩])
include single

theorem site?_of_single : (new p).site? r = some site := by
  rw [site?,definitions_new,← head?_filter,filter_reverse,single]
  rfl

theorem mem_of_single : ⟨r,site⟩ ∈ p.definitions := by
  have member : (⟨r,site⟩ : Definition) ∈ p.definitions.filter fun d => d.register = r := by simp [single]
  exact (mem_filter.mp member).1

theorem filter_useFaults (available : Site → Bool)
    (value : Register) : ((new p).useFaults b available value).filter (isRead b r) =
      if value = r ∧ ¬ available site = true then [⟨.useNotDominated r,p.id,some b⟩] else [] := by
  by_cases same : value = r
  · subst same
    rw [useFaults,site?_of_single single]
    by_cases there : available site = true
    · simp [there]
    · simp [there,report,isRead,new]
  · rw [if_neg fun both => same both.1,filter_eq_nil_iff]
    intro d inside passes
    simp only [isRead,Bool.and_eq_true,Bool.or_eq_true,decide_eq_true_eq] at passes
    rcases mem_useFaults inside with rfl | rfl <;> simp [report,same] at passes

end

theorem Misfits.filter_isRead {faults : List Diagnostic} (misfits : Misfits b faults) : faults.filter (isRead b r) = [] := by
  refine filter_eq_nil_iff.mpr fun d inside passes => ?_
  obtain ⟨-,reason,fault⟩ := misfits d inside
  simp [isRead,fault] at passes

section
variable (single : (p.definitions.filter fun d => d.register = r) = [⟨r,site⟩])
include single

section
variable (executes : site.move? = some move)
include executes

theorem availableAt_iff_not_misses (reached : p.graph.Reached b) (found : p.graph.block? b = some k)
    (bound : index ≤ k.instrs.length) : (new p).availableAt b index site = true ↔ ¬ p.graph.MissesRead move b (.inside index) := by
  rw [availableAt_iff (reached.visited_block found),Graph.MissesRead,misses_iff (mem_of_single single) executes reached found bound,
    not_not]

theorem availableOn_iff_not_misses {a : BlockId} (reached : p.graph.Reached a) (found : p.graph.block? a = some k) :
    (new p).availableOn a b site = true ↔ ¬ p.graph.MissesRead move b (.edge a) := by
  have defined := mem_of_single single
  rw [availableOn_iff (reached.visited_block found),coversEdge_iff defined executes found]
  have place : p.graph.MissesRead move b (.edge a) ↔ p.graph.Misses move a k.instrs.length := by
    refine ⟨fun ⟨k',found',missed⟩ => ?_,fun missed => ⟨k,found,missed⟩⟩
    obtain rfl := Option.mem_unique found found'
    exact missed
  rw [place,misses_iff defined executes reached found (Nat.le_refl _),not_not]

theorem filter_incomingFaults (present : p.graph.hasBlock p.graph.entry = true) (phi : Register)
    (preds seen : List BlockId) (incoming : List (BlockId × Register)) :
    ((new p).incomingFaults b phi preds seen incoming).filter (isRead b r) =
      incoming.flatMap fun edge => if edge.2 = r ∧ p.graph.MissesRead move b (.edge edge.1) then
        [⟨.useNotDominated r,p.id,some b⟩] else [] := by
  induction incoming generalizing seen with
  | nil =>
    refine filter_eq_nil_iff.mpr fun d inside passes => ?_
    obtain ⟨pred,-,rfl⟩ := mem_map.mp inside
    simp [report,isRead] at passes
  | cons edge rest ih =>
    obtain ⟨source,value⟩ := edge
    rw [flatMap_cons]
    unfold incomingFaults
    split
    · rename_i unreached
      have unmissed : ¬ p.graph.MissesRead move b (.edge source) := by
        rintro ⟨k,found,moves,path,-⟩
        have : (new p).tree.isReachable source = true :=
          isReachable_compute.mpr (path.reached.visited_block found)
        simp [this] at unreached
      rw [if_neg fun both => unmissed both.2,nil_append]
      exact ih seen
    · rename_i visited
      have reachable : (new p).tree.isReachable source = true := by simpa using visited
      have visited : p.graph.Visited source := isReachable_compute.mp reachable
      have exist : p.graph.hasBlock source = true := visited.2.elim (fun first => first ▸ present) id
      obtain ⟨k,found⟩ := contains_iff.mp exist
      have foreign : (if source ∈ preds then [] else
          [(new p).report (some b) (.invalidPhi phi (.notPredecessor source))]).filter (isRead b r) = [] := by
        split <;> simp [report,isRead]
      have twice : (if source ∈ seen then [(new p).report (some b) (.invalidPhi phi (.repeatedEdge source))] else
          []).filter (isRead b r) = [] := by
        split <;> simp [report,isRead]
      rw [filter_append,filter_append,filter_append,foreign,twice,nil_append,nil_append,ih,
        filter_useFaults single]
      simp only [availableOn_iff_not_misses single executes visited.1 found,not_not]

theorem filter_uses (reached : p.graph.Reached b) (found : p.graph.block? b = some k) (bound : index ≤ k.instrs.length)
    (uses : List Register) : (uses.flatMap ((new p).useFaults b ((new p).availableAt b index))).filter (isRead b r) =
      uses.flatMap fun value => if value = r ∧ p.graph.MissesRead move b (.inside index) then
        [⟨.useNotDominated r,p.id,some b⟩] else [] := by
  rw [filter_flatMap]
  refine flatMap_congr fun value _ => ?_
  rw [filter_useFaults single]
  simp only [availableAt_iff_not_misses single executes reached found bound,not_not]

theorem filter_blockFaults (reached : p.graph.Reached b) (found : p.graph.block? b = some k) :
    ((new p).blockFaults b k).filter (isRead b r) =
      (k.reads.filter fun read => read.1 = r ∧ p.graph.MissesRead move b read.2).map fun _ =>
        ⟨.useNotDominated r,p.id,some b⟩ := by
  have present := reached.entry_exists (contains_iff.mpr ⟨k,found⟩)
  have one : ∀ reads : List (Register × Place), ((reads.filter fun read => read.1 = r ∧ p.graph.MissesRead move b read.2).map
      fun _ => (⟨.useNotDominated r,p.id,some b⟩ : Diagnostic)) = reads.flatMap fun read =>
        if read.1 = r ∧ p.graph.MissesRead move b read.2 then [⟨.useNotDominated r,p.id,some b⟩] else [] := by
    intro reads
    induction reads with
    | nil => rfl
    | cons read rest ih =>
      rw [flatMap_cons,← ih,filter_cons]
      by_cases missed : read.1 = r ∧ p.graph.MissesRead move b read.2
      · simp [missed]
      · simp [missed]
  rw [one]
  simp only [Block.reads,flatMap_append,flatMap_assoc,flatMap_map,blockFaults,filter_append,
    filter_flatMap]
  refine congrArg₂ _ (congrArg₂ _ ?_ ?_) ?_
  · exact flatMap_congr fun phi _ => filter_incomingFaults single executes present _ _ _ _
  · refine flatMap_congr fun entry inside => ?_
    have bound := (List.getElem?_eq_some_iff.mp (mem_zipIdx_iff_getElem?.mp inside)).1
    obtain ⟨misfits,signatures,same⟩ := (new p).instrFaults_eq b entry.2 entry.1
    rw [same,filter_append,signatures.filter_isRead,append_nil]
    exact filter_uses single executes reached found (le_of_lt bound) _
  · refine flatMap_congr fun t _ => ?_
    obtain ⟨misfits,signatures,same⟩ := (new p).terminatorFaults_eq b k.instrs.length t
    rw [same,filter_append,signatures.filter_isRead,append_nil]
    exact filter_uses single executes reached found (le_refl _) _

end

end

/-! ### Phis -/

theorem filter_isPhi_useFaults : (v.useFaults b available r).filter (isPhi b) = [] := by
  refine filter_eq_nil_iff.mpr fun d inside passes => ?_
  rcases mem_useFaults inside with rfl | rfl <;> simp [report,isPhi] at passes

theorem fault_of_incoming (inside : d ∈ (v.incomingFaults b phi preds seen incoming).filter (isPhi b)) :
    ∃ reason, d = v.report (some b) (.invalidPhi phi reason) := by
  obtain ⟨there,passes⟩ := mem_filter.mp inside
  refine (mem_incomingFaults there).resolve_right fun ⟨available,r,use⟩ => ?_
  exact filter_eq_nil_iff.mp filter_isPhi_useFaults d use passes

/-- The edges of a phi that count are those from blocks in the tree: each has to come once and from a
    predecessor, and none may be missing. -/
theorem filter_isPhi_eq_nil : (v.incomingFaults b phi preds seen incoming).filter (isPhi b) = [] ↔
      ((incoming.map fst).filter v.tree.isReachable).Nodup ∧
        (∀ a ∈ (incoming.map fst).filter v.tree.isReachable, a ∉ seen ∧ a ∈ preds) ∧
        ∀ a ∈ preds, a ∈ seen ∨ a ∈ (incoming.map fst).filter v.tree.isReachable := by
  induction incoming generalizing seen with
  | nil =>
    simp only [incomingFaults,filter_map,map_eq_nil_iff,filter_eq_nil_iff,mem_filter]
    simp [report,isPhi]
  | cons edge rest ih =>
    obtain ⟨source,value⟩ := edge
    rw [map_cons]
    unfold incomingFaults
    split
    · rename_i unreached
      rw [filter_cons_of_neg (by simpa using unreached)]
      exact ih
    · rename_i reached
      have reached : v.tree.isReachable source = true := by simpa using reached
      rw [filter_cons_of_pos reached]
      have foreign : (if source ∈ preds then [] else
          [v.report (some b) (.invalidPhi phi (.notPredecessor source))]).filter (isPhi b) = [] ↔ source ∈ preds := by
        by_cases known : source ∈ preds <;> simp [known,report,isPhi]
      have twice : (if source ∈ seen then [v.report (some b) (.invalidPhi phi (.repeatedEdge source))] else
          []).filter (isPhi b) = [] ↔ source ∉ seen := by
        by_cases known : source ∈ seen <;> simp [known,report,isPhi]
      simp only [filter_append,append_eq_nil_iff,foreign,twice,filter_isPhi_useFaults,and_true,ih,
        nodup_cons,mem_cons,forall_eq_or_imp,not_or]
      constructor
      · rintro ⟨⟨known,new⟩,distinct,sources,complete⟩
        refine ⟨⟨fun again => (sources source again).1.1 rfl,distinct⟩,⟨⟨new,known⟩,fun a inside => ?_⟩,fun a pred => ?_⟩
        · exact ⟨(sources a inside).1.2,(sources a inside).2⟩
        · rcases complete a pred with (same | before) | later
          · exact .inr (.inl same)
          · exact .inl before
          · exact .inr (.inr later)
      · rintro ⟨⟨once,distinct⟩,⟨⟨new,known⟩,sources⟩,complete⟩
        refine ⟨⟨known,new⟩,distinct,fun a inside => ?_,fun a pred => ?_⟩
        · exact ⟨⟨fun same => once (same ▸ inside),(sources a inside).1⟩,(sources a inside).2⟩
        · rcases complete a pred with before | same | later
          · exact .inl (.inr before)
          · exact .inl (.inl same)
          · exact .inr later

theorem fits_iff {phi : Phi} (present : p.graph.hasBlock p.graph.entry = true) :
    ((new p).incomingFaults b phi.dest ((new p).predecessors b) [] phi.incoming).filter (isPhi b) = [] ↔ phi.Fits p.graph b := by
  have counted : (phi.incoming.map fst).filter (new p).tree.isReachable =
      (phi.incoming.map fst).filter fun a => p.graph.Reached a ∧ p.graph.hasBlock a = true := by
    refine filter_congr fun a _ => ?_
    have visited : (new p).tree.isReachable a = true ↔ p.graph.Visited a := isReachable_compute
    rw [Bool.eq_iff_iff,decide_eq_true_iff,visited]
    exact and_congr_right fun _ => ⟨fun place => place.elim (fun first => first ▸ present) id,.inr⟩
  rw [filter_isPhi_eq_nil,counted,Phi.Fits]
  refine and_congr_right fun _ => ⟨fun ⟨sources,complete⟩ a => ?_,fun sources => ⟨fun a inside => ?_,fun a pred => ?_⟩⟩
  · rw [← mem_predecessors_new]
    exact ⟨fun inside => (sources a inside).2,fun pred => (complete a pred).resolve_left not_mem_nil⟩
  · exact ⟨not_mem_nil,mem_predecessors_new.mpr ((sources a).mp inside)⟩
  · exact .inr ((sources a).mpr (mem_predecessors_new.mp pred))

theorem filter_isPhi_blockFaults : (v.blockFaults b k).filter (isPhi b) = k.phis.flatMap fun phi =>
    (v.incomingFaults b phi.dest (v.predecessors b) [] phi.incoming).filter (isPhi b) := by
  have code : ∀ {uses : List Register} {available : Site → Bool} {misfits : List Diagnostic}, Misfits b misfits →
      (uses.flatMap (v.useFaults b available) ++ misfits).filter (isPhi b) = [] := by
    intro uses available misfits signatures
    rw [filter_append,filter_flatMap,append_eq_nil_iff]
    refine ⟨flatMap_eq_nil_iff.mpr fun r _ => filter_isPhi_useFaults,filter_eq_nil_iff.mpr fun d inside passes => ?_⟩
    obtain ⟨-,reason,fault⟩ := signatures d inside
    simp [isPhi,fault] at passes
  have instrs : (k.instrs.zipIdx.flatMap fun entry => (v.instrFaults b entry.2 entry.1).filter (isPhi b)) = [] := by
    refine flatMap_eq_nil_iff.mpr fun entry _ => ?_
    obtain ⟨misfits,signatures,same⟩ := v.instrFaults_eq b entry.2 entry.1
    rw [same,code signatures]
  have last : (k.terminator.toList.flatMap fun t =>
      (v.terminatorFaults b k.instrs.length t).filter (isPhi b)) = [] := by
    refine flatMap_eq_nil_iff.mpr fun t _ => ?_
    obtain ⟨misfits,signatures,same⟩ := v.terminatorFaults_eq b k.instrs.length t
    rw [same,code signatures]
  simp only [blockFaults,filter_append,filter_flatMap,instrs,last,append_nil]

end Validator

/-- In a reached block the check reports the reads of a register with one definition, by a parameter, a
    phi or an instruction, that some path reaches without this definition, each with one report and in
    order, and no others. Its reports on the phis of the block are one list for each phi, which is empty
    exactly when the edges of the phi are those from the reached predecessors, each once. -/
theorem Procedure.validate_exact (p : Procedure) (b : BlockId) (k : Block) (reached : p.graph.Reached b)
    (found : p.graph.block? b = some k) :
    (∀ r site move, (p.definitions.filter fun d => d.register = r) = [⟨r,site⟩] → site.move? = some move →
      p.validate.filter (Diagnostic.isRead b r) = (k.reads.filter fun read => read.1 = r ∧ p.graph.MissesRead move b read.2).map fun _ =>
          ⟨.useNotDominated r,p.id,some b⟩) ∧
    ∃ reports : Phi → List Diagnostic, p.validate.filter (Diagnostic.isPhi b) = k.phis.flatMap reports ∧
      ∀ phi ∈ k.phis, (∀ d ∈ reports phi, ∃ reason, d = ⟨.invalidPhi phi.dest reason,p.id,some b⟩) ∧
        (reports phi ≠ [] ↔ ¬ phi.Fits p.graph b) := by
  constructor
  · intro r site move single executes
    rw [Validator.filter_faults reached found,Validator.filter_blockFaults single executes reached found]
    · intro d passes
      simp only [Diagnostic.isRead,Bool.and_eq_true,decide_eq_true_eq] at passes
      exact passes.1
    · intro d passes
      simp only [Diagnostic.isRead,Bool.and_eq_true,Bool.or_eq_true,decide_eq_true_eq] at passes
      rcases passes.2 with fault | fault <;> simp [fault]
  · refine ⟨_,(Validator.filter_faults reached found ?_ ?_).trans Validator.filter_isPhi_blockFaults,fun phi _ => ⟨?_,?_⟩⟩
    · intro d passes
      simp only [Diagnostic.isPhi,Bool.and_eq_true,decide_eq_true_eq] at passes
      exact passes.1
    · intro d passes
      simp only [Diagnostic.isPhi,Bool.and_eq_true] at passes
      cases fault : d.fault <;> simp [fault] at passes ⊢
    · exact fun d inside => Validator.fault_of_incoming inside
    · exact not_congr (Validator.fits_iff (reached.entry_exists (contains_iff.mpr ⟨k,found⟩)))

/-- A function without parameters, made of blocks. -/
def Procedure.ofBlocks (result : NativeType) (blocks : List Block) : Procedure :=
  { new ⟨0⟩ "f" ⟨[],result⟩ with
    graph := ⟨.ofList (blocks.map fun b => (b.id, b)),.first,blocks.length⟩ }

/-- A function that reads a register where two branches join, of which one defines it. -/
def siblingRead : Procedure := .ofBlocks .void [
  { Block.new ⟨0⟩ with instrs := [.const ⟨0⟩ (.bool true)], terminator := some (.condBranch ⟨0⟩ ⟨1⟩ ⟨2⟩) },
  { Block.new ⟨1⟩ with instrs := [.const ⟨1⟩ (.i32 1)], terminator := some (.branch ⟨3⟩) },
  { Block.new ⟨2⟩ with terminator := some (.branch ⟨3⟩) },
  { Block.new ⟨3⟩ with instrs := [.unary ⟨2⟩ .neg ⟨1⟩], terminator := some (.ret none) }]

theorem siblingRead_missed : ∃ k, siblingRead.graph.Reached ⟨3⟩ ∧ siblingRead.graph.block? ⟨3⟩ = some k ∧
    (siblingRead.definitions.filter fun d => d.register = ⟨1⟩) = [⟨⟨1⟩,.instr ⟨1⟩ 0⟩] ∧
    siblingRead.validate.filter (Diagnostic.isRead ⟨3⟩ ⟨1⟩) = [⟨.useNotDominated ⟨1⟩,⟨0⟩,some ⟨3⟩⟩] ∧
    siblingRead.graph.Misses (.instr ⟨1⟩ 0) ⟨3⟩ 0 := by
  have reached : siblingRead.graph.Reached ⟨3⟩ := by decide +kernel
  have found : siblingRead.graph.block? ⟨3⟩ = some { Block.new ⟨3⟩ with
    instrs := [.unary ⟨2⟩ .neg ⟨1⟩], terminator := some (.ret none) } := by decide +kernel
  have single : (siblingRead.definitions.filter fun d => d.register = ⟨1⟩) = [⟨⟨1⟩,.instr ⟨1⟩ 0⟩] := by decide +kernel
  have reported : siblingRead.validate.filter (Diagnostic.isRead ⟨3⟩ ⟨1⟩) = [⟨.useNotDominated ⟨1⟩,⟨0⟩,some ⟨3⟩⟩] := by
    decide +kernel
  have exact := (siblingRead.validate_exact ⟨3⟩ _ reached found).1 ⟨1⟩ _ _ single rfl
  refine ⟨_,reached,found,single,reported,?_⟩
  rw [reported] at exact
  by_contra unmissed
  simp [Block.reads,Block.new,Instr.uses,Terminator.uses,Graph.MissesRead,unmissed] at exact

end BlockLowering
