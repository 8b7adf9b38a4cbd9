import BlockLowering.Validation
import BlockLowering.Proofs.Settling
/-!
Definitions and uses. In a sound function every register that the reached blocks define is defined once,
and the definition of a used register lies on every path to the use. The check of a function therefore
finds nothing in it but blocks without a terminator and calls or returns that do not fit a signature.
-/
namespace BlockLowering
open List Definition Validator Block DominatorTree Procedure Table Instr
variable {i : Instr} {α : Type} {site : Site} {r : Register} {b pred : BlockId} {index : Nat} {after before : List Instr} {t : Terminator}
  {phi : Phi} {d : Diagnostic} {earlier : List Register}

/-! ### Definitions -/

theorem Instr.uses_of_isAlloc (slot : i.isAlloc = true) : i.uses = [] := by
  cases i with
  | alloc dest type => rfl
  | _ => cases slot

theorem Terminator.definition?_map (t : Terminator) : t.definition?.map register = t.dest? := by
  cases t with
  | invoke dest site normal unwind => cases dest <;> rfl
  | _ => rfl

theorem Block.registers_definitions (b : BlockId) (k : Block) : (k.definitions b).map register = k.defs := by
  have instrs : ∀ (code : List Instr) (n : Nat),
      ((code.zipIdx n).filterMap fun entry => entry.1.dest?.map fun dest =>
        (⟨dest,.instr b entry.2⟩ : Definition)).map register = code.filterMap dest? := by
    intro code
    induction code with
    | nil => exact fun _ => rfl
    | cons i rest ih =>
      intro n
      rw [zipIdx_cons,filterMap_cons,filterMap_cons]
      cases i.dest? with
      | none => exact ih (n + 1)
      | some dest => exact congrArg (dest :: ·) (ih (n + 1))
  have last : ((k.terminator.bind Terminator.definition?).toList).map register =
      (k.terminator.bind Terminator.dest?).toList := by
    cases k.terminator with
    | none => rfl
    | some t => rw [Option.bind_some,Option.bind_some,← t.definition?_map]; cases t.definition? <;> rfl
  simp only [definitions,defs,map_append,map_map,instrs,last]
  rfl

theorem Definition.mem_map_site {xs : List α} {f : α → Register} {own : Site} :
    (⟨r,site⟩ : Definition) ∈ xs.map (fun x => ⟨f x,own⟩) ↔ site = own ∧ r ∈ xs.map f := by
  simp only [mem_map,mk.injEq]
  constructor
  · rintro ⟨x,inside,dest,rfl⟩
    exact ⟨rfl,x,inside,dest⟩
  · rintro ⟨rfl,x,inside,dest⟩
    exact ⟨x,inside,dest,rfl⟩

theorem Block.mem_definitions {k : Block} : ⟨r,site⟩ ∈ k.definitions b ↔
      (site = .phi b ∧ r ∈ k.phis.map Phi.dest) ∨ (∃ n i, site = .instr b n ∧ k.instrs[n]? = some i ∧ i.dest? = some r) ∨
        ∃ call normal unwind, site = .invoke normal ∧ k.terminator = some (.invoke (some r) call normal unwind) := by
  have instrs : ⟨r,site⟩ ∈ k.instrs.zipIdx.filterMap (fun entry => entry.1.dest?.map fun dest =>
      (⟨dest,.instr b entry.2⟩ : Definition)) ↔
      ∃ n i, site = .instr b n ∧ k.instrs[n]? = some i ∧ i.dest? = some r := by
    simp only [mem_filterMap,mem_zipIdx_iff_getElem?,Option.map_eq_some_iff,Definition.mk.injEq]
    constructor
    · rintro ⟨entry,found,_,dest,rfl,rfl⟩
      exact ⟨entry.2,entry.1,rfl,found,dest⟩
    · rintro ⟨n,i,rfl,found,dest⟩
      exact ⟨(i, n),found,r,dest,rfl,rfl⟩
  have last : ⟨r,site⟩ ∈ (k.terminator.bind Terminator.definition?).toList ↔
      ∃ call normal unwind, site = .invoke normal ∧ k.terminator = some (.invoke (some r) call normal unwind) := by
    rw [Option.mem_toList,Option.bind_eq_some_iff]
    constructor
    · rintro ⟨t,ended,defined⟩
      cases t with
      | invoke dest call normal unwind =>
        cases dest with
        | none => cases defined
        | some dest =>
          obtain ⟨rfl,rfl⟩ := Definition.mk.inj (Option.some.inj defined)
          exact ⟨call,normal,unwind,rfl,ended⟩
      | _ => cases defined
    · rintro ⟨call,normal,unwind,rfl,ended⟩
      exact ⟨_,ended,rfl⟩
  rw [definitions,mem_append,mem_append,Definition.mem_map_site,instrs,last,or_assoc]

namespace Procedure
variable {supply : Supply} {p : Procedure} {a b d : BlockId} {k : Block} {r : Register} {site : Site}

/-- The blocks that are reached, in the order of creation. -/
def reachedBlocks (p : Procedure) : List (BlockId × Block) := p.graph.blocks.entries.filter fun e => p.graph.Reached e.1

/-- The definitions of the parameters and of the blocks that are reached. -/
def definitions (p : Procedure) : List Definition :=
  p.header.parameters.map (fun parameter => ⟨parameter.register,.parameter⟩) ++
    p.reachedBlocks.flatMap fun e => e.2.definitions e.1

theorem mem_reachedBlocks : (b, k) ∈ p.reachedBlocks ↔ p.graph.Reached b ∧ p.graph.block? b = some k := by
  rw [reachedBlocks,mem_filter,mem_entries_iff,decide_eq_true_iff,and_comm]
  rfl

theorem mem_definitions : ⟨r,site⟩ ∈ p.definitions ↔ (site = .parameter ∧ r ∈ p.inputs) ∨
    ∃ b k, p.graph.Reached b ∧ p.graph.block? b = some k ∧ ⟨r,site⟩ ∈ k.definitions b := by
  rw [definitions,mem_append,mem_map_site,mem_flatMap]
  simp only [inputs,Prod.exists,mem_reachedBlocks,and_assoc]

theorem Numbered.nodup_definitions (numbered : p.Numbered) : (p.definitions.map register).Nodup := by
  have registers : p.definitions.map register = p.inputs ++ p.reachedBlocks.flatMap fun e => e.2.defs := by
    simp only [definitions,map_append,map_map,map_flatMap,registers_definitions]
    rfl
  rw [registers]
  exact numbered.nodup_defs (p.graph.blocks.nodup.sublist (filter_sublist.map Prod.fst))
    fun e inside => (mem_reachedBlocks.mp inside).2

theorem find?_definitions (single : (p.definitions.map register).Nodup) (inside : ⟨r,site⟩ ∈ p.definitions) :
    (p.definitions.reverse.find? fun d => d.register = r) = some ⟨r,site⟩ := by
  have search : ∀ ds : List Definition, (ds.map register).Nodup → ⟨r,site⟩ ∈ ds →
      (ds.find? fun d => d.register = r) = some ⟨r,site⟩ := by
    intro ds
    induction ds with
    | nil => exact fun _ inside => nomatch inside
    | cons d rest ih =>
      intro distinct inside
      obtain ⟨other,distinct⟩ := nodup_cons.mp distinct
      rcases mem_cons.mp inside with rfl | inside
      · simp
      · have different : d.register ≠ r := fun same => other (same ▸ mem_map_of_mem inside)
        rw [find?_cons_of_neg (by simpa using different)]
        exact ih distinct inside
  refine search _ ?_ (mem_reverse.mpr inside)
  rw [map_reverse]
  exact (reverse_perm _).nodup_iff.mpr single

theorem Numbered.site_unique {site' : Site} (numbered : p.Numbered) (here : ⟨r,site⟩ ∈ p.definitions)
    (there : ⟨r,site'⟩ ∈ p.definitions) : site = site' :=
  (Definition.mk.inj (Option.some.inj ((find?_definitions numbered.nodup_definitions here).symm.trans
    (find?_definitions numbered.nodup_definitions there)))).2

/-! ### Uses -/

end Procedure

/-- A definition comes before the place `index` of a block on every path to it. -/
def Site.CoversAt (g : Graph) (b : BlockId) (index : Nat) : Site → Prop
  | .parameter => True
  | .phi source => g.Dominates source b
  | .instr source position => if source = b then position < index else g.Dominates source b
  | .invoke normal => g.Dominates normal b

/-- A definition comes before the edge between two blocks on every path over it. -/
def Site.CoversEdge (g : Graph) (pred b : BlockId) : Site → Prop
  | .parameter => True
  | .phi source | .instr source _ => g.Dominates source pred
  | .invoke normal => normal = b ∨ g.Dominates normal pred

/-- A definition stands on an edge: the edge makes it or its source does, unless it is one of the entry or of a parameter. -/
def Site.Feeds (g : Graph) (a x : BlockId) : Site → Prop
  | .parameter => True
  | .phi source => a = source
  | .instr source _ => a = source ∨ source = g.entry
  | .invoke normal => x = normal

theorem Site.CoversAt.edge {g : Graph} (covers : site.CoversAt g pred index) :
    site.CoversEdge g pred b := by
  cases site with
  | parameter => trivial
  | phi source => exact covers
  | instr source position =>
    by_cases same : source = pred
    · exact same ▸ .refl g source
    · have covers : if source = pred then position < index else g.Dominates source pred := covers
      rwa [if_neg same] at covers
  | invoke normal => exact .inr covers

namespace Procedure
variable {supply : Supply} {p : Procedure} {a b d : BlockId} {k : Block} {r : Register} {site : Site}

section
variable (sound : Sound supply p)
include sound

/-- A register that has a value is supplied or has a definition in the block, in the entry or among the
    parameters that comes before. -/
theorem Holds.origin (reached : p.graph.Reached b)
    (found : p.graph.block? b = some k) (code : k.code = before ++ after) (holds : Holds supply p b k before r) :
    r ∈ supply b ∨ ∃ site, ⟨r,site⟩ ∈ p.definitions ∧ site.CoversAt p.graph b (k.instrs.length - after.length) ∧
      ∀ x, site.Feeds p.graph b x := by
  obtain ⟨heads,same,slotted,-⟩ := sound.numbered.headed found
  rw [code] at same
  have length : k.instrs.length - after.length = heads.length + before.length := by
    rw [same]
    simp only [length_append]
    omega
  rw [length]
  rcases holds with input | slot | supplied | merged | computed
  · exact .inr ⟨.parameter,mem_definitions.mpr (.inl ⟨rfl,input⟩),trivial,fun _ => trivial⟩
  · obtain ⟨k₀,first⟩ := sound.entry
    rw [slots,first,Option.map_some,Option.getD_some] at slot
    obtain ⟨i,inside,dest⟩ := mem_filterMap.mp slot
    obtain ⟨n,at_n⟩ := mem_iff_getElem?.mp inside
    refine .inr ⟨.instr p.graph.entry n,mem_definitions.mpr (.inr ⟨_,k₀,.entry,first,
      Block.mem_definitions.mpr (.inr (.inl ⟨n,i,rfl,at_n,dest?_of_slot? dest⟩))⟩),?_,fun _ => .inr rfl⟩
    show if p.graph.entry = b then _ else _
    split
    · rename_i here
      -- Behind the stack slots at the head of the entry there are none.
      subst here
      obtain rfl := Option.mem_unique first found
      apply Nat.lt_of_lt_of_le _ (Nat.le_add_right _ _)
      apply Nat.lt_of_not_le
      intro beyond
      rw [same,getElem?_append_right beyond,← code] at at_n
      rw [slot?_eq_none.mpr (mem_code (mem_of_getElem? at_n))] at dest
      cases dest
    · exact p.graph.dominates_entry b
  · exact .inl supplied
  · exact .inr ⟨.phi b,mem_definitions.mpr (.inr ⟨b,k,reached,found,
      Block.mem_definitions.mpr (.inl ⟨rfl,merged⟩)⟩),.refl _ _,fun _ => rfl⟩
  · obtain ⟨i,inside,dest⟩ := mem_filterMap.mp computed
    obtain ⟨n,at_n⟩ := mem_iff_getElem?.mp inside
    have bound := (List.getElem?_eq_some_iff.mp at_n).1
    have there : k.instrs[heads.length + n]? = some i := by
      rw [same,getElem?_append_right (Nat.le_add_right _ _),Nat.add_sub_cancel_left,
        getElem?_append_left bound,at_n]
    refine .inr ⟨.instr b (heads.length + n),mem_definitions.mpr (.inr ⟨b,k,reached,found,
      Block.mem_definitions.mpr (.inr (.inl ⟨_,i,rfl,there,dest⟩))⟩),?_,fun _ => .inl rfl⟩
    show if b = b then _ else _
    rw [if_pos rfl]
    omega

theorem Sound.passed {x : BlockId} (reached : p.graph.Reached a) (edge : x ∈ p.graph.successors a) (counted : r ∈ supply x) :
    r ∈ supply a ∨ ∃ site, ⟨r,site⟩ ∈ p.definitions ∧ site.Feeds p.graph a x := by
  obtain ⟨k,found,edge⟩ := Graph.exists_block_of_edge edge
  cases ended : k.terminator with
  | none => simp [successors,ended] at edge
  | some t =>
    have target : x ∈ t.successors := by simpa [successors,ended] using edge
    rcases sound.supplied.edges found ended target counted with holds | given
    · rcases holds.origin sound reached found (append_nil _).symm with supplied | ⟨site,defined,-,place⟩
      · exact .inl supplied
      · exact .inr ⟨site,defined,place x⟩
    · cases t with
      | invoke dest call normal unwind =>
        have given : r ∈ if x = normal then dest.toList else [] := given
        split at given
        · rename_i here
          obtain rfl := Option.mem_toList.mp given
          exact .inr ⟨.invoke x,mem_definitions.mpr (.inr ⟨a,k,reached,found,
            Block.mem_definitions.mpr (.inr (.inr ⟨call,normal,unwind,by rw [here],ended⟩))⟩),rfl⟩
        · cases given
      | _ => cases given

section
variable (reached : p.graph.Reached b)
include reached

theorem Sound.supply_defined (counted : r ∈ supply b) : ∃ site, ⟨r,site⟩ ∈ p.definitions := by
  induction reached with
  | entry =>
    rw [sound.supplied.first] at counted
    cases counted
  | step before edge ih =>
    rcases sound.passed before edge counted with earlier | ⟨site,defined,-⟩
    · exact ih earlier
    · exact ⟨site,defined⟩

theorem Sound.supply_covered (counted : r ∈ supply b) (index : Nat) : ∃ site, ⟨r,site⟩ ∈ p.definitions ∧ site.CoversAt p.graph b index := by
  obtain ⟨site,defined⟩ := sound.supply_defined reached counted
  have entry : ¬ r ∈ supply p.graph.entry := by
    rw [sound.supplied.first]
    exact not_mem_nil
  -- The blocks that count on the register are entered past its definition only.
  have dominated : ∀ {d}, (∀ {a x}, site.Feeds p.graph a x → x = d ∨ a = d) → p.graph.Dominates d b := by
    intro d meets
    refine Graph.dominates_of_closed (fun x => r ∈ supply x) entry (fun before edge counted => ?_) counted
    rcases sound.passed before edge counted with earlier | ⟨site',defined',feeds⟩
    · exact .inr (.inl earlier)
    · obtain rfl := sound.numbered.site_unique defined defined'
      exact (meets feeds).imp_right .inr
  refine ⟨site,defined,?_⟩
  cases site with
  | parameter => trivial
  | phi d => exact dominated .inr
  | invoke normal => exact dominated .inl
  | instr d position =>
    have other : d ≠ b := by
      rintro rfl
      rcases mem_definitions.mp defined with ⟨wrong,-⟩ | ⟨b',k,-,found,inside⟩
      · cases wrong
      · have here : d = b' := by
          rcases Block.mem_definitions.mp inside with ⟨wrong,-⟩ | ⟨_,_,same,-⟩ | ⟨_,_,_,wrong,-⟩
          · cases wrong
          · exact (Site.instr.inj same).1
          · cases wrong
        subst here
        refine sound.supplied.apart found counted ?_
        rw [← registers_definitions d]
        exact mem_map_of_mem inside
    show if d = b then _ else _
    rw [if_neg other]
    by_cases first : d = p.graph.entry
    · exact first ▸ p.graph.dominates_entry b
    · exact dominated fun feeds => .inr (feeds.resolve_right first)

/-- A register that has a value at a place has a definition that comes before on every path. -/
theorem Sound.covered
    (found : p.graph.block? b = some k) (code : k.code = before ++ after) (holds : Holds supply p b k before r) :
    ∃ site, ⟨r,site⟩ ∈ p.definitions ∧ site.CoversAt p.graph b (k.instrs.length - after.length) := by
  rcases holds.origin sound reached found code with supplied | ⟨site,defined,covers,-⟩
  · exact sound.supply_covered reached supplied _
  · exact ⟨site,defined,covers⟩

theorem Sound.operand_covered
    (found : p.graph.block? b = some k) (there : k.instrs[index]? = some i) (used : r ∈ i.uses) :
    ∃ site, ⟨r,site⟩ ∈ p.definitions ∧ site.CoversAt p.graph b index := by
  obtain ⟨heads,same,slotted,-⟩ := sound.numbered.headed found
  have behind : heads.length ≤ index := by
    apply Nat.le_of_not_lt
    intro less
    rw [same,getElem?_append_left less] at there
    rw [uses_of_isAlloc (slotted i (mem_of_getElem? there))] at used
    cases used
  rw [same,getElem?_append_right behind] at there
  obtain ⟨bound,here⟩ := List.getElem?_eq_some_iff.mp there
  have code : k.code = k.code.take (index - heads.length) ++ i :: k.code.drop (index - heads.length + 1) := by
    rw [← here,getElem_cons_drop,take_append_drop]
  obtain ⟨site,defined,covers⟩ := sound.covered reached found code (sound.supplied.operands found code used)
  have place : k.instrs.length - (i :: k.code.drop (index - heads.length + 1)).length = index := by
    rw [same]
    simp only [length_append,length_cons,length_drop]
    omega
  exact ⟨site,defined,place ▸ covers⟩

theorem Sound.ending_covered (found : p.graph.block? b = some k) (ended : k.terminator = some t) (used : r ∈ t.uses) :
    ∃ site, ⟨r,site⟩ ∈ p.definitions ∧ site.CoversAt p.graph b k.instrs.length :=
  sound.covered reached found (append_nil _).symm (sound.supplied.endings found ended used)

end

theorem Sound.incoming_covered (reached : p.graph.Reached a)
    (found : p.graph.block? b = some k) (inside : phi ∈ k.phis) (edge : (a, r) ∈ phi.incoming) :
    ∃ site, ⟨r,site⟩ ∈ p.definitions ∧ site.CoversEdge p.graph a b := by
  obtain ⟨k',source,holds⟩ := sound.supplied.merged found inside edge
  obtain ⟨site,defined,covers⟩ := sound.covered reached source (append_nil _).symm holds
  exact ⟨site,defined,covers.edge⟩

end

end Procedure

/-! ### The check -/

namespace Validator
variable {supply : Supply} {p : Procedure} {b : BlockId} {k : Block} {r : Register} {site : Site}
variable {v : Validator}

theorem blocks_new (p : Procedure) : (new p).blocks = p.reachedBlocks := by
  refine filter_congr fun e inside => ?_
  have exist : p.graph.hasBlock e.1 = true := contains_iff.mpr ⟨e.2,mem_entries_iff.mp inside⟩
  rw [Bool.eq_iff_iff,decide_eq_true_iff]
  exact isReachable_compute.trans ⟨And.left,fun reached => ⟨reached,.inr exist⟩⟩

theorem definitions_new (p : Procedure) : (new p).definitions = p.definitions := by
  have blocks := blocks_new p
  show _ ++ (new p).blocks.flatMap _ = _
  rw [blocks]
  rfl

theorem site?_new (single : (p.definitions.map register).Nodup) (inside : ⟨r,site⟩ ∈ p.definitions) :
    (new p).site? r = some site := by
  rw [site?,definitions_new,find?_definitions single inside]
  rfl

theorem tree_new {d : BlockId} (visited : p.graph.Visited b) : (new p).tree.dominates d b = true ↔ p.graph.Dominates d b :=
  dominates_compute_iff.trans (and_iff_right visited)

theorem availableAt_iff (visited : p.graph.Visited b) :
    (new p).availableAt b index site = true ↔ site.CoversAt p.graph b index := by
  cases site with
  | parameter => exact iff_of_true rfl trivial
  | phi source => exact tree_new visited
  | invoke normal => exact tree_new visited
  | instr source position =>
    show (if source = b then decide (position < index) else _) = true ↔ if source = b then _ else _
    split
    · exact decide_eq_true_iff
    · exact tree_new visited

theorem availableOn_iff (visited : p.graph.Visited pred) :
    (new p).availableOn pred b site = true ↔ site.CoversEdge p.graph pred b := by
  cases site with
  | parameter => exact iff_of_true rfl trivial
  | phi source => exact tree_new visited
  | instr source position => exact tree_new visited
  | invoke normal =>
    show (decide (normal = b) || _) = true ↔ normal = b ∨ _
    rw [Bool.or_eq_true,decide_eq_true_iff]
    exact or_congr_right (tree_new visited)

theorem useFaults_eq_nil {available : Site → Bool} (sound : p.Sound supply) (inside : ⟨r,site⟩ ∈ p.definitions)
    (here : available site = true) : (new p).useFaults b available r = [] := by
  simp [useFaults,site?_new sound.numbered.nodup_definitions inside,here]

theorem repeated_eq_nil {block : Option BlockId} {ds : List Definition}
    (distinct : (ds.map register).Nodup) (apart : ∀ d ∈ ds, d.register ∉ earlier) : v.repeated block earlier ds = [] := by
  induction ds generalizing earlier with
  | nil => rfl
  | cons d rest ih =>
    obtain ⟨other,distinct⟩ := nodup_cons.mp distinct
    obtain ⟨first,others⟩ := forall_mem_cons.mp apart
    have rests : v.repeated block (d.register :: earlier) rest = [] := by
      refine ih distinct fun d' inside => ?_
      rw [mem_cons,not_or]
      exact ⟨fun same => other (same ▸ mem_map_of_mem inside),others d' inside⟩
    simp [repeated,first,rests]

theorem edgeFaults_eq_nil {target : BlockId} (there : v.procedure.graph.hasBlock target = true)
    (inner : target ≠ v.procedure.graph.entry) : v.edgeFaults b target = [] := by
  simp [edgeFaults,there,inner]

theorem mem_shapeFaults {entries : List (BlockId × Block)}
    (distinct : (earlier ++ (entries.flatMap fun e => e.2.definitions e.1).map register).Nodup)
    (targets : ∀ e ∈ entries, ∀ t ∈ e.2.successors, v.procedure.graph.hasBlock t = true ∧ t ≠ v.procedure.graph.entry)
    (inside : d ∈ v.shapeFaults earlier entries) : ∃ e ∈ entries, e.2.terminator = none ∧ d = v.report (some e.1) .missingTerminator := by
  induction entries generalizing earlier with
  | nil => cases inside
  | cons e rest ih =>
    obtain ⟨b,k⟩ := e
    simp only [flatMap_cons,map_append,← append_assoc] at distinct
    obtain ⟨firsts,-,-⟩ := nodup_append.mp distinct
    obtain ⟨-,single,apart⟩ := nodup_append.mp firsts
    have repeats : v.repeated (some b) earlier (k.definitions b) = [] :=
      repeated_eq_nil single fun d' member known => apart _ known _ (mem_map_of_mem member) rfl
    have edges : k.successors.flatMap (v.edgeFaults b) = [] :=
      flatMap_eq_nil_iff.mpr fun t member =>
        have good := targets (b, k) (.head _) t member
        edgeFaults_eq_nil good.1 good.2
    simp only [shapeFaults,repeats,edges,nil_append,append_nil,mem_append] at inside
    rcases inside with first | later
    · split at first
      · cases first
      · rename_i isOpen
        refine ⟨(b, k),.head _,?_,mem_singleton.mp first⟩
        simpa [isTerminated] using isOpen
    · obtain ⟨e,member,found⟩ := ih distinct (fun e member => targets e (.tail _ member)) later
      exact ⟨e,.tail _ member,found⟩

theorem incomingFaults_eq_nil {phi : Register} {preds seen : List BlockId} {incoming : List (BlockId × Register)}
    (distinct : (incoming.map Prod.fst).Nodup) (apart : ∀ edge ∈ incoming, edge.1 ∉ seen)
    (good : ∀ edge ∈ incoming, v.tree.isReachable edge.1 = true → edge.1 ∈ preds ∧ v.useFaults b (v.availableOn edge.1 b) edge.2 = [])
    (complete : ∀ pred ∈ preds, v.tree.isReachable pred = true ∧ (pred ∈ seen ∨ pred ∈ incoming.map Prod.fst)) :
    v.incomingFaults b phi preds seen incoming = [] := by
  induction incoming generalizing seen with
  | nil =>
    simp only [incomingFaults,map_eq_nil_iff,filter_eq_nil_iff]
    intro pred inside
    simpa using (complete pred inside).2
  | cons edge rest ih =>
    obtain ⟨source,value⟩ := edge
    obtain ⟨other,distinct⟩ := nodup_cons.mp distinct
    obtain ⟨first,others⟩ := forall_mem_cons.mp apart
    obtain ⟨goodFirst,goodOthers⟩ := forall_mem_cons.mp good
    unfold incomingFaults
    split
    · rename_i unreached
      refine ih distinct others goodOthers fun pred inside => ?_
      obtain ⟨reached,place⟩ := complete pred inside
      refine ⟨reached,place.imp_right fun member => (mem_cons.mp member).resolve_left ?_⟩
      rintro rfl
      simp [reached] at unreached
    · rename_i reached
      obtain ⟨known,available⟩ := goodFirst (by simpa using reached)
      have rests : v.incomingFaults b phi preds (source :: seen) rest = [] := by
        refine ih distinct (fun edge inside => ?_) goodOthers fun pred inside => ?_
        · rw [mem_cons,not_or]
          exact ⟨fun same => other (mem_map.mpr ⟨edge,inside,same⟩),others edge inside⟩
        · obtain ⟨reached,place⟩ := complete pred inside
          refine ⟨reached,?_⟩
          rcases place with before | member
          · exact .inl (.tail _ before)
          · rcases mem_cons.mp member with rfl | member
            · exact .inl (.head _)
            · exact .inr member
      simp [known,available,rests]

theorem mem_predecessors_new {a : BlockId} : a ∈ (new p).predecessors b ↔ p.graph.Reached a ∧ b ∈ p.graph.successors a := by
  have blocks := blocks_new p
  unfold predecessors
  rw [blocks,mem_map]
  constructor
  · rintro ⟨⟨x,k⟩,member,rfl⟩
    obtain ⟨listed,edge⟩ := mem_filter.mp member
    obtain ⟨reached,found⟩ := mem_reachedBlocks.mp listed
    exact ⟨reached,Graph.successors_of_block found ▸ of_decide_eq_true edge⟩
  · rintro ⟨reached,edge⟩
    obtain ⟨k,found,edge⟩ := Graph.exists_block_of_edge edge
    exact ⟨(a, k),mem_filter.mpr ⟨mem_reachedBlocks.mpr ⟨reached,found⟩,decide_eq_true edge⟩,rfl⟩

/-- Every fault is one of a signature. -/
def OfSignature (faults : List Diagnostic) : Prop := ∀ d ∈ faults, ∃ reason, d.fault = .signatureMismatch reason

theorem OfSignature.of_eq_nil {faults : List Diagnostic} (none : faults = []) : OfSignature faults := by
  rw [none]
  exact fun _ inside => nomatch inside

theorem OfSignature.append {first second : List Diagnostic} (left : OfSignature first) (right : OfSignature second) :
    OfSignature (first ++ second) :=
  fun d inside => (mem_append.mp inside).elim (left d) (right d)

theorem OfSignature.flatMap {xs : List α} {f : α → List Diagnostic} (each : ∀ x ∈ xs, OfSignature (f x)) :
    OfSignature (xs.flatMap f) := fun d inside => by
  obtain ⟨x,member,inside⟩ := mem_flatMap.mp inside
  exact each x member d inside

theorem ofSignature_callFaults (v : Validator) (b : BlockId) (site : CallSite) : OfSignature (v.callFaults b site) := by
  unfold callFaults
  split
  · exact .of_eq_nil rfl
  · intro d inside
    rw [mem_singleton.mp inside]
    exact ⟨_,rfl⟩

section
variable (sound : p.Sound supply)
include sound

theorem ofSignature_uses {rs : List Register} (reached : p.graph.Reached b)
    (covered : ∀ r ∈ rs, ∃ site, ⟨r,site⟩ ∈ p.definitions ∧ site.CoversAt p.graph b index) :
    OfSignature (rs.flatMap ((new p).useFaults b ((new p).availableAt b index))) := .flatMap fun r used => by
  obtain ⟨site,defined,covers⟩ := covered r used
  exact .of_eq_nil (useFaults_eq_nil sound defined ((availableAt_iff (sound.wired.whole.visited reached)).mpr covers))

theorem ofSignature_instrFaults (reached : p.graph.Reached b) (found : p.graph.block? b = some k)
    (there : k.instrs[index]? = some i) : OfSignature ((new p).instrFaults b index i) := by
  refine .append (ofSignature_uses sound reached fun r used => sound.operand_covered reached found there used) ?_
  split
  · exact ofSignature_callFaults _ _ _
  · exact .of_eq_nil rfl

theorem ofSignature_terminatorFaults (reached : p.graph.Reached b) (found : p.graph.block? b = some k)
    (ended : k.terminator = some t) : OfSignature ((new p).terminatorFaults b k.instrs.length t) := by
  refine .append (ofSignature_uses sound reached fun r used => sound.ending_covered reached found ended used) ?_
  split
  · exact ofSignature_callFaults _ _ _
  · dsimp only
    split
    · exact .of_eq_nil rfl
    · intro d inside
      rw [mem_singleton.mp inside]
      exact ⟨_,rfl⟩
  · exact .of_eq_nil rfl

theorem incomingFaults_new (found : p.graph.block? b = some k) (inside : phi ∈ k.phis) :
    (new p).incomingFaults b phi.dest ((new p).predecessors b) [] phi.incoming = [] := by
  have whole := sound.wired.whole
  have sources := sound.wired.merges found inside
  refine incomingFaults_eq_nil (sources ▸ sound.wired.distinct found) (by simp) ?_ ?_
  · intro edge member reached
    have reached : p.graph.Reached edge.1 := (isReachable_compute.mp reached).1
    have pred : edge.1 ∈ k.predecessors := sources ▸ mem_map_of_mem member
    obtain ⟨k',there,target⟩ := sound.wired.sources found pred
    refine ⟨mem_predecessors_new.mpr ⟨reached,Graph.successors_of_block there ▸ target⟩,?_⟩
    obtain ⟨site,defined,covers⟩ := sound.incoming_covered reached found inside member
    exact useFaults_eq_nil sound defined ((availableOn_iff (whole.visited reached)).mpr covers)
  · intro pred member
    obtain ⟨reached,edge⟩ := mem_predecessors_new.mp member
    refine ⟨isReachable_compute.mpr (whole.visited reached),.inr ?_⟩
    obtain ⟨k',there,edge⟩ := Graph.exists_block_of_edge edge
    obtain ⟨-,k'',found',recorded⟩ := sound.wired.targets there edge
    obtain rfl := Option.mem_unique found found'
    rwa [sources]

theorem ofSignature_blockFaults (reached : p.graph.Reached b) (found : p.graph.block? b = some k) :
    OfSignature ((new p).blockFaults b k) := by
  refine .append (.append ?_ ?_) ?_
  · exact .flatMap fun phi inside => .of_eq_nil (incomingFaults_new sound found inside)
  · exact .flatMap fun entry inside =>
      ofSignature_instrFaults sound reached found (mem_zipIdx_iff_getElem?.mp inside)
  · refine .flatMap fun t inside => ofSignature_terminatorFaults sound reached found ?_
    exact Option.mem_toList.mp inside

end

end Validator

theorem Procedure.validate_eq (p : Procedure) : p.validate =
    (Validator.new p).repeated none [] (p.header.parameters.map fun param => ⟨param.register,.parameter⟩) ++
      (Validator.new p).shapeFaults p.inputs p.reachedBlocks ++ p.reachedBlocks.flatMap fun e => (Validator.new p).blockFaults e.1 e.2 := by
  have inputs : p.inputs = (p.header.parameters.map fun param => Definition.mk param.register .parameter).map Definition.register := by
    rw [map_map]
    rfl
  rw [← blocks_new,inputs]
  rfl

theorem Procedure.Sound.validate {supply : Supply} {p : Procedure} (sound : p.Sound supply)
    (inside : d ∈ p.validate) : (∃ b k, p.graph.Reached b ∧ p.graph.block? b = some k ∧ k.terminator = none ∧
      d = ⟨.missingTerminator,p.id,some b⟩) ∨ ∃ reason, d.fault = .signatureMismatch reason := by
  have distinct := sound.numbered.nodup_definitions
  rw [definitions,map_append,map_map] at distinct
  rw [validate_eq,repeated_eq_nil (by rw [map_map]; exact (nodup_append.mp distinct).1) (by simp),nil_append] at inside
  rcases mem_append.mp inside with shape | code
  · left
    obtain ⟨⟨b,k⟩,member,isOpen,rfl⟩ := mem_shapeFaults distinct (fun e member t target => by
      obtain ⟨inner,k',there,-⟩ := sound.wired.targets (mem_reachedBlocks.mp member).2 target
      exact ⟨contains_iff.mpr ⟨k',there⟩,inner⟩) shape
    obtain ⟨reached,found⟩ := mem_reachedBlocks.mp member
    exact ⟨b,k,reached,found,isOpen,rfl⟩
  · right
    obtain ⟨⟨b,k⟩,member,inside⟩ := mem_flatMap.mp code
    obtain ⟨reached,found⟩ := mem_reachedBlocks.mp member
    exact ofSignature_blockFaults sound reached found d inside

end BlockLowering
